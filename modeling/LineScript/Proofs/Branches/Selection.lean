import LineScript.Proofs.Branches.Chain
import LineScript.Proofs.Expression.Action

/-!
# The block that a chain selects

A condition that is `false` leads to what stands behind the `else`, one that is `true` into the
block.  The `else` behind a block that was run is met later and passed over, by another look for its
block.  The two agree but for an `else` that ends its line before an `if`.  `Machine.chain_selects`
says what a chain does in every layout: it goes into the block of the first condition that is
`true`, and from there behind the last block, unless such an `else` is in between.
-/

namespace LineScript

/-!
## Going from part to part
-/

namespace Machine

variable {m m₁ m' : Machine} {p : Program} {n t : Nat} {pos : Position} {target : Option Position}
  {block e : Extent} {line : Line} {before after : List Cell} {c : Cell}

theorem standsAt_of_cells (cell : m.program.CellAt pos line before c after)
    (loaded : m.program.Loaded) (running : m.finished = false) (aim : m.work.purpose = .statement)
    (index : m.work.index = pos.line) (holds : m.work.line.cells = c :: after) :
    m.StandsAt pos where
  running := running
  aim := aim
  index := index
  rest := by
    rw [Program.lineAt_eq cell.found, Except.bind_ok, Line.cellsFrom, cell.focus loaded, holds]
    rfl

theorem StandsAt.works (here : m.StandsAt pos) (sane : m.Sane p n) (loaded : p.Loaded)
    (cell : p.CellAt pos line before c after) : m.WorksOn pos.line (c :: after) .statement := by
  have rest := here.rest
  rw [sane.program, Program.lineAt_eq cell.found, Except.bind_ok, Line.cellsFrom,
    cell.focus loaded] at rest
  have holds : m.work.line.cells = c :: after := (Except.ok.inj rest).symm
  refine ⟨here.running, here.index, holds, here.aim, ?_, ?_⟩
  · rw [← holds]
    exact sane.work.sound.distinct
  · intro r selected
    obtain ⟨d, ds, cells, ref, kind⟩ := sane.work.selected r selected
    exact ⟨d, ds, holds.symm.trans cells, ref, kind⟩

theorem goTo_at (loaded : p.Loaded) (program : m.program = p) (running : m.finished = false)
    (linked : ∀ pos, target = some pos → p.Linked pos) :
    ∃ m', (Action.goTo target).outcome m = .ok ((), m') ∧ m'.At target ∧
      m' = { m with work := m'.work, finished := m'.finished } := by
  subst program
  cases target with
  | none => exact ⟨_, outcome_halt, rfl, rfl⟩
  | some pos =>
      obtain ⟨line, before, c, after, found, cells, ref⟩ := (linked pos rfl).split
      obtain ⟨i, r⟩ := pos
      obtain rfl : c.ref = r := ref
      exact ⟨_, outcome_goTo found (loaded.line found) before cells,
        standsAt_of_cells ⟨found, cells, rfl⟩ loaded running rfl rfl rfl, rfl⟩

theorem goToLine_at (loaded : p.Loaded) (program : m.program = p) (running : m.finished = false)
    (i : Nat) : ∃ m', (Action.goToLine i).outcome m = .ok ((), m') ∧ m'.At (p.firstFrom? i) ∧
      m' = { m with work := m'.work, finished := m'.finished } := by
  subst program
  rw [Program.firstFrom?_eq loaded]
  cases found : m.program.lines[i]? with
  | none => exact ⟨_, outcome_goToLine_past found, rfl, rfl⟩
  | some line =>
      obtain ⟨c, after, cells⟩ := List.exists_cons_of_ne_nil (loaded.line found).filled
      refine ⟨_, outcome_goToLine found, ?_, rfl⟩
      rw [Option.bind_some, Program.headOf, cells, List.head?_cons, Option.map_some]
      have cell : m.program.CellAt { line := i, token := c.ref } line [] c after :=
        ⟨found, cells, rfl⟩
      exact standsAt_of_cells cell loaded running rfl rfl cells

theorem next_acting {f : Focus} (running : m.finished = false) (distinct : m.work.line.Distinct)
    (acts : m.acting? = some f) :
    m.next = ((Action.act f).outcome
      { m with work := { m.work with selected := none } }).map Prod.snd := by
  obtain ⟨r, picked, located⟩ := Option.bind_eq_some_iff.1 acts
  rw [next, Action.outcome, Action.step_eq_act running picked
    (Line.focus_of_focus? distinct located)]
  rfl

/-!
Deciding.
-/

theorem decision?_eq_some {b : Bool} (decides : m.decision? = some (pos, b)) :
    m.finished = false ∧ ∃ f x, m.acting? = some f ∧ f.cell.token.kind = .keyword .if ∧
      m.positionOf f.cell = pos ∧ f.next? = some x ∧ m.valueOf x.token = .ok (.bool b) ∧
      ∀ d, f.after.tail.head? = some d → d.token.kind = .openBrace := by
  unfold decision? at decides
  split at decides
  · cases decides
  · rename_i running
    split at decides
    · rename_i before cell x rest acts
      split at decides
      · rename_i parts
        split at decides
        · rename_i value
          cases decides
          refine ⟨by simpa using running, ⟨before, cell, x :: rest⟩, x, acts, parts.1, rfl, rfl,
            value, ?_⟩
          intro d head
          have opening := parts.2
          rw [show rest.head? = some d from head, Option.all_some] at opening
          exact Program.isOpenBrace_iff.1 opening
        · cases decides
      · cases decides
    · cases decides

theorem isOperand_of_valueOf {x : Token} {v : Value} (value : m.valueOf x = .ok v) :
    x.kind.isOperand = true := by
  unfold valueOf at value
  split at value
  · rename_i kind
    rw [kind]
    rfl
  · rename_i kind
    rw [kind]
    rfl
  · cases value

/-- An `if` that decides goes into its block or to what follows it. -/
theorem next_decides {b : Bool} (decides : m.decision? = some (pos, b)) (sane : m.Sane p n)
    (balanced : p.Balanced) (guarded : p.IfBlock pos block) :
    ∃ m' target, m.next = .ok m' ∧ m'.At target ∧
      if b then target = some block.opening
        else Action.elseBranch p block.closing = .ok target := by
  obtain ⟨running, f, x, acts, kind, here, next, value, brace⟩ := decision?_eq_some decides
  obtain ⟨started, ended⟩ := Program.blockAfter_ok guarded.block
  have isBlock := (guarded.guards balanced).block
  obtain ⟨close, ends⟩ := isBlock.ends balanced
  have operand := isOperand_of_valueOf value
  have ready : ∀ m₀ : Machine, (Action.branch f).outcome m₀ =
    (Action.takeBranch f x).outcome m₀ := by
    intro m₀
    unfold Action.branch Action.rightOperand
    rw [next, Action.outcome_bind, Action.outcome_asOperand m₀ operand, Except.bind_ok]
    cases tail : f.after.tail.head? with
    | none => rfl
    | some d => simp [brace d tail]
  have step := next_acting running sane.work.sound.distinct acts
  rw [Action.outcome_act (by rw [kind]; rfl)] at step
  simp only [Action.perform, kind, Action.applyKeyword, ready] at step
  generalize same : ({ m with work := { m.work with selected := none } } : Machine) = m₀ at step
  have value₀ : m₀.valueOf x.token = .ok (.bool b) := by
    rw [← same]
    exact value
  have program₀ : m₀.program = p := by
    rw [← same]
    exact sane.program
  have here₀ : m₀.positionOf f.cell = pos := by
    rw [← same]
    exact here
  have running₀ : m₀.finished = false := by
    rw [← same]
    exact running
  simp only [Action.takeBranch, Action.outcome_bind, Action.outcome_valueOf, value₀,
    Except.map_ok_eq,
    Except.bind_ok, Action.outcome_get, program₀, here₀, Action.outcome_ofExcept, started,
    Action.outcome_emit] at step
  cases b with
  | true =>
      have linked : ∀ pos, some block.opening = some pos → p.Linked pos := by
        rintro _ ⟨⟩
        exact isBlock.brace.linked
      obtain ⟨m', moved, arrives, -⟩ := goTo_at balanced.loaded program₀ running₀ linked
      refine ⟨m', _, ?_, arrives, rfl⟩
      rw [step, if_pos rfl, moved]
      rfl
  | false =>
      obtain ⟨target, found, linked⟩ := Action.elseBranch_ok balanced ends.linked
      obtain ⟨m', moved, arrives, -⟩ := goTo_at balanced.loaded program₀ running₀ linked
      refine ⟨m', target, ?_, arrives, found⟩
      simp only [Bool.false_eq_true, if_false, Action.outcome_bind, Action.outcome_ofExcept, ended,
        Except.map_ok_eq, Except.bind_ok, Action.outcome_ofFault, found, orFault,
        Except.mapError_ok_eq, moved] at step
      exact step

/-!
Passing over an `else`.
-/

theorem StandsAt.acting_else (here : m.StandsAt pos) (sane : m.Sane p n) (loaded : p.Loaded)
    (cell : p.CellAt pos line [] c after) (kind : c.token.kind = .keyword .else) :
    m.acting? = some ⟨[], c, after⟩ := by
  have works := here.works sane loaded cell
  have fresh : ∀ d ∈ c :: after, d.Fresh := by
    have cells : line.cells = c :: after := cell.cells
    rw [← cells]
    exact (loaded.line cell.found).fresh
  have head : ∀ d, (c :: after).head? = some d → d.token.kind.isScopeBracket = false := by
    rintro d ⟨⟩
    rw [kind]
    rfl
  have chosen : Focus.Chosen ⟨[], c, after⟩ := by
    refine ⟨nofun, fun d member => ?_⟩
    rw [(fresh d (List.mem_cons_of_mem _ member)).1, (fresh c (List.mem_cons_self ..)).1, kind]
    exact d.token.kind.basePriority_le_control
  have whole : Focus.cells ⟨[], c, after⟩ = m.work.line.cells := works.holds.symm
  have picked := choice?_chosen (works.unselected head) whole
    (by rw [works.holds]; exact head) chosen
  have located := Line.focus?_eq_some sane.work.sound.distinct whole
  rw [acting?, picked, Option.bind_some, located]

theorem StandsAt.next_else (here : m.StandsAt pos) (sane : m.Sane p n) (loaded : p.Loaded)
    (cell : p.CellAt pos line [] c after) (kind : c.token.kind = .keyword .else) :
    m.next = (p.blockAfter pos).bind fun block =>
      (orFault (p.following block.closing)).bind fun target =>
        ((Action.goTo target).outcome m).map Prod.snd := by
  have works := here.works sane loaded cell
  have unselected : { m with work := { m.work with selected := none } } = m := by
    rw [← works.unselected]
    rintro d ⟨⟩
    rw [kind]
    rfl
  have place : m.positionOf c = pos := by rw [positionOf, works.index, cell.ref]
  rw [next_acting here.running sane.work.sound.distinct
    (here.acting_else sane loaded cell kind), unselected,
    Action.outcome_act (by rw [kind]; rfl)]
  simp only [Action.perform, kind, Action.applyKeyword, Action.passElse, Action.outcome_bind,
    Action.outcome_get, Except.bind_ok, Action.outcome_ofExcept, sane.program, place]
  cases p.blockAfter pos with
  | error stop => rfl
  | ok block =>
      simp only [Except.map_ok_eq, Except.bind_ok, Action.outcome_ofFault]
      cases orFault (p.following block.closing) <;> rfl

theorem skipsTo_here (here : m.At target) : m.SkipsTo target :=
  ⟨0, m, rfl, here, rfl, nofun⟩

theorem SkipsTo.step (rest : m₁.SkipsTo target) (step : m.next = .ok m₁)
    (same : m₁ = { m with work := m₁.work, finished := m₁.finished })
    (only : ∀ f, m.acting? = some f → f.cell.token.kind = .keyword .else) : m.SkipsTo target := by
  obtain ⟨k, m', reached, here, same', only'⟩ := rest
  refine ⟨k + 1, m', by rw [after_succ, step]; exact reached, here, ?_, ?_⟩
  · refine same'.trans ?_
    rw [same]
  · intro j lt s f reached' acts
    cases j with
    | zero =>
        cases reached'
        exact only f acts
    | succ j =>
        rw [after_succ, step] at reached'
        exact only' j (by omega) s f reached' acts

theorem MissesBlock.step (misses : m₁.MissesBlock) (step : m.next = .ok m₁) : m.MissesBlock := by
  obtain ⟨k, m', line, reached, failed⟩ := misses
  exact ⟨k + 1, m', line, by rw [after_succ, step]; exact reached, failed⟩

theorem StandsAt.passes_else (here : m.StandsAt pos) (sane : m.Sane p n) (balanced : p.Balanced)
    (cell : p.CellAt pos line [] c after) (kind : c.token.kind = .keyword .else)
    (made : p.blockAfter pos = .ok e) (isBlock : p.IsBlock e)
    (follows : p.following e.closing = .ok target) :
    ∃ m', m.next = .ok m' ∧ m'.At target ∧
      m' = { m with work := m'.work, finished := m'.finished } := by
  obtain ⟨close, ends⟩ := isBlock.ends balanced
  obtain ⟨target', follows', linked⟩ := ends.linked.following balanced.loaded
  rw [follows] at follows'
  cases follows'
  obtain ⟨m', moved, arrives, same⟩ := goTo_at balanced.loaded sane.program here.running linked
  refine ⟨m', ?_, arrives, same⟩
  rw [here.next_else sane balanced.loaded cell kind, made, Except.bind_ok, follows]
  simp only [orFault, Except.mapError_ok_eq, Except.bind_ok, moved, Except.map_ok_eq]

/-!
Opening and closing a block.
-/

theorem StandsAt.next_open (here : m.StandsAt pos) (sane : m.Sane p n) (loaded : p.Loaded)
    (brace : p.BraceAt pos) : ∃ m₁, m.next = .ok m₁ ∧ m₁.symbols = m.symbols.push := by
  obtain ⟨line, header, c, found, cells, kind, ref⟩ := brace
  have cell : p.CellAt pos line header c [] := ⟨found, cells, ref⟩
  have step := next_first (here.works sane loaded cell) (.inr rfl)
  rw [Action.outcome_act (by rw [kind]; rfl)] at step
  have removed := outcome_remove_alone (m := { m with work := { m.work with selected := none } })
    (f := ⟨[], c, []⟩) (here.works sane loaded cell).holds.symm rfl rfl
  simp only [Action.perform, kind, TokenKind.openBrace, Action.openBlock, Action.outcome_bind,
    Action.outcome_get, Except.bind_ok, removed, Action.newScope, Action.outcome_modify,
    Except.map_ok_eq] at step
  exact ⟨_, step, rfl⟩

theorem Rooted.isBlock (rooted : m.Rooted p n) {b : Extent} (member : b ∈ m.bodies) :
    p.IsBlock b := by
  rcases mem_bodies.1 member with ⟨l, hl, rfl⟩ | ⟨f, hf, rfl⟩ | ⟨call, hc, rfl⟩
  · exact (rooted.sane.loops l hl).body
  · exact rooted.sane.functions f hf
  · exact (rooted.sane.calls call hc).body

/-- The `}` of a block that is no body closes a scope. -/
theorem StandsAt.next_close (here : m.StandsAt e.closing) (rooted : m.Rooted p n)
    (balanced : p.Balanced) (guards : p.Guards t e) :
    ∃ m₁, m.next = .ok m₁ ∧ m₁ = { m with symbols := m.symbols.pop, work := m₁.work } ∧
      m₁.WorksOn e.closing.line [] .statement := by
  obtain ⟨close, ends⟩ := guards.block.ends balanced
  obtain ⟨line, found, cells⟩ := ends.found
  have cell : p.CellAt e.closing line [] close [] := ⟨found, cells, ends.ref⟩
  have works := here.works rooted.sane balanced.loaded cell
  have notBody : ∀ b ∈ m.bodies, b.closing.line ≠ m.work.index := by
    intro b member
    rw [works.index]
    exact guards.closing_ne balanced (rooted.bodies b member) (rooted.isBlock member)
  have stays : ∀ work : Work, Action.endsLoop { m with work } m.work.index = false := by
    intro work
    unfold Action.endsLoop
    split
    · rfl
    · rename_i loop loops own
      have member : loop ∈ m.loops := by rw [show m.loops = loop :: loops from own]; simp
      have other := notBody loop.body (mem_bodies.2 (.inl ⟨loop, member, rfl⟩))
      simp [other]
  have step := next_first works (.inr rfl)
  rw [Action.outcome_act (by rw [ends.kind]; rfl)] at step
  have removed := outcome_remove_alone (m := { m with work := { m.work with selected := none } })
    (f := ⟨[], close, []⟩) works.holds.symm rfl rfl
  simp only [Action.perform, ends.kind, TokenKind.closeBrace, Action.closeBlock,
    Action.outcome_bind,
    Action.outcome_get, Except.bind_ok, removed, onLine, Action.outcome_setSymbols,
    Action.outcome_emit, stays, Bool.false_eq_true, if_false] at step
  refine ⟨{ m with
    symbols := m.symbols.pop
    work := { m.work with line := m.work.line.withCells [], selected := none } }, ?_, rfl,
    works.running, works.index, rfl, works.aim, .nil, by simp⟩
  rw [step]
  split
  · rfl
  · rename_i call calls own
    have member : call ∈ m.calls := by rw [show m.calls = call :: calls from own]; simp
    rw [if_neg (notBody call.function.body (mem_bodies.2 (.inr (.inr ⟨call, member, rfl⟩))))]
    rfl

theorem StandsAt.leaves (here : m.StandsAt e.closing) (rooted : m.Rooted p n)
    (balanced : p.Balanced)
    (bounded : p.Bounded n) (guards : p.Guards t e) (follows : p.following e.closing = .ok target) :
    ∃ m' : Machine, m'.Sane p n ∧ m'.At target ∧ (∀ finish, m'.SkipsTo finish → m.Leaves finish) ∧
      (m'.MissesBlock → m.MissesBlock) := by
  obtain ⟨close, ends⟩ := guards.block.ends balanced
  obtain ⟨m₁, closes, same, works⟩ := here.next_close rooted balanced guards
  have sane := rooted.sane.next balanced bounded closes
  have idle : m₁.acting? = none := by
    have unselected := works.unselected (by simp)
    simp [acting?, Action.choice?, unselected, Line.highest?, works.holds]
  obtain ⟨m', moved, arrives, kept⟩ :=
    goToLine_at balanced.loaded sane.program works.running (e.closing.line + 1)
  have step : m₁.next = .ok m' := by
    rw [next_empty works.running works.holds, outcome_conclude_statement works.aim rfl, works.index,
      moved]
    rfl
  rw [ends.following balanced.loaded] at follows
  cases follows
  refine ⟨m', sane.next balanced bounded step, arrives, fun finish skips => ?_,
    fun misses => (misses.step step).step closes⟩
  refine ⟨m₁, closes, same, skips.step step kept ?_⟩
  simp [idle]

end Machine

/-!
## Whole chains
-/

namespace Chain

variable {p : Program} {n : Nat} {m : Machine} {chain : Chain} {finish : Option Position}

theorem In.ifBlock (inside : chain.In p) : p.IfBlock chain.head chain.block := by
  cases chain with
  | last head block => exact inside.1
  | otherwise head block mark other => exact inside.1
  | further head block mark rest => exact inside.1

/-- From behind a block the run comes behind the chain, unless an `else` does not find its block. -/
theorem In.behind (inside : chain.In p) (balanced : p.Balanced) (bounded : p.Bounded n)
    (sane : m.Sane p n) {after : Option Position}
    (follows : p.following chain.block.closing = .ok after)
    (ends : p.following chain.lastBlock.closing = .ok finish) (here : m.At after) :
    if chain.joined then m.SkipsTo finish else m.MissesBlock := by
  have loaded := balanced.loaded
  have isBlock := (inside.ifBlock.guards balanced).block
  induction chain generalizing m after with
  | last head block =>
      obtain rfl : after = finish := Except.ok.inj (follows.symm.trans ends)
      exact Machine.skipsTo_here here
  | otherwise head block mark other =>
      obtain ⟨-, elseAfter, next, brace, matched⟩ := inside
      obtain ⟨line, c, rest, cell, kind⟩ := elseAfter.cell isBlock balanced
      obtain rfl : after = some mark := Except.ok.inj (follows.symm.trans elseAfter.follows)
      obtain ⟨made, guards⟩ := cell.guards_else balanced kind next brace matched
      obtain ⟨m', step, arrives, same⟩ :=
        Machine.StandsAt.passes_else here sane balanced cell kind made guards.block ends
      refine (Machine.skipsTo_here arrives).step step same ?_
      rw [Machine.StandsAt.acting_else here sane loaded cell kind]
      rintro f ⟨⟩
      exact kind
  | further head block mark rest ih =>
      obtain ⟨-, elseAfter, next, inside'⟩ := inside
      obtain ⟨line, c, cells, cell, kind⟩ := elseAfter.cell isBlock balanced
      obtain rfl : after = some mark := Except.ok.inj (follows.symm.trans elseAfter.follows)
      by_cases same : mark.line = rest.head.line
      · have made := cell.blockAfter_else balanced next inside'.ifBlock same
        have isBlock' := (inside'.ifBlock.guards balanced).block
        obtain ⟨close, closes⟩ := isBlock'.ends balanced
        have follows' := closes.following loaded
        obtain ⟨m', step, arrives, kept⟩ :=
          Machine.StandsAt.passes_else here sane balanced cell kind made isBlock' follows'
        have later := ih inside' (sane.next balanced bounded step) follows' ends arrives isBlock'
        simp only [joined, same, decide_true, Bool.true_and]
        split
        · rename_i whole
          rw [if_pos whole] at later
          refine later.step step kept ?_
          rw [Machine.StandsAt.acting_else here sane loaded cell kind]
          rintro f ⟨⟩
          exact kind
        · rename_i torn
          rw [if_neg torn] at later
          exact later.step step
      · have missing := cell.blockAfter_missing loaded kind next inside'.ifBlock.keyword same
        have failed := Machine.StandsAt.next_else here sane loaded cell kind
        rw [missing, Except.bind_error] at failed
        simp only [joined, same, decide_false, Bool.false_and, Bool.false_eq_true, if_false]
        exact ⟨0, m, c.token.line, rfl, failed⟩

theorem In.leaves (inside : chain.In p) (balanced : p.Balanced) (bounded : p.Bounded n)
    (rooted : m.Rooted p n) (ends : p.following chain.lastBlock.closing = .ok finish)
    (here : m.StandsAt chain.block.closing) :
    if chain.joined then m.Leaves finish else m.MissesBlock := by
  have guards := inside.ifBlock.guards balanced
  obtain ⟨close, closes⟩ := guards.block.ends balanced
  have follows := closes.following balanced.loaded
  obtain ⟨m₂, sane, arrives, leaves, misses⟩ := here.leaves rooted balanced bounded guards follows
  have later := inside.behind balanced bounded sane follows ends arrives
  split
  · rename_i whole
    rw [if_pos whole] at later
    exact leaves finish later
  · rename_i torn
    rw [if_neg torn] at later
    exact misses later

theorem In.branches (inside : chain.In p) (balanced : p.Balanced) (bounded : p.Bounded n)
    (rooted : m.Rooted p n) (ends : p.following chain.lastBlock.closing = .ok finish)
    {no : Machine → Prop} (other : ∀ (e : Machine) target, e.Rooted p n → e.At target →
      Action.elseBranch p chain.block.closing = .ok target → no e) :
    m.Branches chain.head
      (fun e => e.GoesInto chain.block fun m' =>
        if chain.joined then m'.Leaves finish else m'.MissesBlock) no := by
  intro k d b reached decides
  have rooted := rooted.after balanced bounded reached
  obtain ⟨e, target, step, here, choice⟩ :=
    Machine.next_decides decides rooted.sane balanced inside.ifBlock
  have rooted := rooted.next balanced bounded step
  refine ⟨e, step, ?_⟩
  cases b with
  | true =>
      obtain rfl := choice
      have brace := (inside.ifBlock.guards balanced).block.brace
      refine ⟨here, here.next_open rooted.sane balanced.loaded brace, fun j m' reached' at_ => ?_⟩
      exact inside.leaves balanced bounded (rooted.after balanced bounded reached') ends at_
  | false => exact other e target rooted here choice

theorem elseBranch_last {block : Extent} (isBlock : p.IsBlock block) (balanced : p.Balanced)
    (noElse : ∀ after ∈ (p.following block.closing).toOption, ∀ mark ∈ after,
      p.kindAt? mark ≠ some (.keyword .else)) :
    Action.elseBranch p block.closing = p.following block.closing := by
  obtain ⟨close, ends⟩ := isBlock.ends balanced
  obtain ⟨target, follows, linked⟩ := ends.linked.following balanced.loaded
  rw [follows] at noElse
  cases target with
  | none => simp [Action.elseBranch, follows]
  | some mark =>
      have other := noElse (some mark) rfl mark rfl
      obtain ⟨token, here⟩ := (linked mark rfl).tokenAt balanced.loaded
      have kind : token.kind ≠ .keyword .else := by
        intro same
        refine other ?_
        simp [Program.kindAt?, here, Except.toOption, same]
      simp [Action.elseBranch, follows, here, kind]

theorem elseBranch_else {block : Extent} {mark : Position} (elseAfter : p.ElseAfter block mark) :
    Action.elseBranch p block.closing = p.following mark := by
  obtain ⟨token, here, kind⟩ := Option.map_eq_some_iff.1 elseAfter.keyword
  rw [Except.toOption_eq_some_iff] at here
  simp [Action.elseBranch, elseAfter.follows, here, kind]

theorem In.selects (inside : chain.In p) (balanced : p.Balanced) (bounded : p.Bounded n)
    (rooted : m.Rooted p n) (ends : p.following chain.lastBlock.closing = .ok finish) :
    chain.Selects finish m := by
  have isBlock := (inside.ifBlock.guards balanced).block
  induction chain generalizing m with
  | last head block =>
      refine inside.branches balanced bounded rooted ends fun e target _ here choice => ?_
      have behind := (elseBranch_last isBlock balanced inside.2).symm.trans choice
      obtain rfl : finish = target := Except.ok.inj (ends.symm.trans behind)
      exact here
  | otherwise head block mark other =>
      refine inside.branches balanced bounded rooted ends fun e target rooted here choice => ?_
      obtain ⟨-, elseAfter, next, brace, matched⟩ := inside
      have behind := (elseBranch_else elseAfter).symm.trans choice
      obtain rfl : some other.opening = target := Except.ok.inj (next.symm.trans behind)
      obtain ⟨line, c, rest, cell, kind⟩ := elseAfter.cell isBlock balanced
      obtain ⟨-, guards⟩ := cell.guards_else balanced kind next brace matched
      have opens := Machine.StandsAt.next_open here rooted.sane balanced.loaded guards.block.brace
      refine ⟨here, opens, fun k m' reached at_ => ?_⟩
      obtain ⟨m₂, -, arrives, leaves, -⟩ := Machine.StandsAt.leaves at_
        (rooted.after balanced bounded reached) balanced bounded guards ends
      exact leaves finish (Machine.skipsTo_here arrives)
  | further head block mark rest ih =>
      refine inside.branches balanced bounded rooted ends fun e target rooted here choice => ?_
      obtain ⟨-, elseAfter, next, inside'⟩ := inside
      have behind := (elseBranch_else elseAfter).symm.trans choice
      obtain rfl : some rest.head = target := Except.ok.inj (next.symm.trans behind)
      exact ⟨here, ih inside' rooted ends (inside'.ifBlock.guards balanced).block⟩

theorem In.exists_finish (inside : chain.In p) (balanced : p.Balanced) :
    ∃ finish, p.following chain.lastBlock.closing = .ok finish := by
  have behind {e : Extent} (isBlock : p.IsBlock e) : ∃ finish,
    p.following e.closing = .ok finish := by
    obtain ⟨close, ends⟩ := isBlock.ends balanced
    exact ⟨_, ends.following balanced.loaded⟩
  induction chain with
  | last head block => exact behind (inside.ifBlock.guards balanced).block
  | otherwise head block mark other =>
      have isBlock := (inside.ifBlock.guards balanced).block
      obtain ⟨-, elseAfter, next, brace, matched⟩ := inside
      obtain ⟨line, c, rest, cell, kind⟩ := elseAfter.cell isBlock balanced
      exact behind (cell.guards_else balanced kind next brace matched).2.block
  | further head block mark rest ih => exact ih inside.2.2.2

end Chain

namespace Machine

/-- In every state of a run of a loaded script, and whatever the conditions of a chain come to: the
chain goes into the block of the first condition that is `true`, or that of the last `else`, or
none, and when it comes to the `}` of that block the run goes on behind the last block of the chain.
The `else`s in between are passed over, unless one is not on the line of its `if`: there the run
stops. -/
theorem chain_selects {source : String} {p : Program} (loaded : Program.load source = .ok p)
    (settings : Settings) {k : Nat} {m : Machine}
    (reached : (Machine.start p settings).machine.after k = .ok m) {chain : Chain}
    (inside : chain.In p) :
    ∃ finish, p.following chain.lastBlock.closing = .ok finish ∧ chain.Selects finish m := by
  have balanced := Program.balanced_of_load loaded
  obtain ⟨n, nests⟩ := p.exists_nestsBelow
  have bounded := Program.bounded_of_load loaded nests
  have rooted := (rooted_start balanced.loaded bounded settings).after balanced bounded reached
  obtain ⟨finish, ends⟩ := inside.exists_finish balanced
  exact ⟨finish, ends, inside.selects balanced bounded rooted ends⟩

def chainScript : String :=
  "int n = 2\nif n == 1 \x7b\nsystem println \"one\"\n\x7d
else if n == 2\n\x7b\nsystem println \"two\"\n\x7d
else\n\x7b\nsystem println \"many\"\n\x7d\nsystem println \"end\""

def chainScriptChain : Chain :=
  .further ⟨1, 0⟩ ⟨⟨1, 4⟩, ⟨3, 0⟩⟩ ⟨4, 0⟩
    (.otherwise ⟨4, 1⟩ ⟨⟨5, 0⟩, ⟨7, 0⟩⟩ ⟨8, 0⟩ ⟨⟨9, 0⟩, ⟨11, 0⟩⟩)

theorem chain_selects_chainScript :
    Program.load chainScript = .ok (programOf chainScript) ∧
      chainScriptChain.In (programOf chainScript) ∧ chainScriptChain.joined = true ∧
      (stateOf chainScript 2).StandsAt chainScriptChain.head ∧
      (stateOf chainScript 3).decision? = some (⟨1, 0⟩, false) ∧
      (stateOf chainScript 5).decision? = some (⟨4, 1⟩, true) ∧
      (stateOf chainScript 10).StandsAt ⟨7, 0⟩ ∧ (stateOf chainScript 13).StandsAt ⟨12, 0⟩ ∧
      (stateOf chainScript 15).sink.text = "two\nend\n" ∧
      ∃ finish, (programOf chainScript).following chainScriptChain.lastBlock.closing = .ok finish ∧
        chainScriptChain.Selects finish (stateOf chainScript 2) := by
  have checked : (Program.load chainScript).toOption.isSome = true ∧
      chainScriptChain.In (programOf chainScript) ∧ chainScriptChain.joined = true ∧
      ((Machine.start (programOf chainScript) {}).machine.after 2).toOption.isSome = true ∧
      (stateOf chainScript 2).StandsAt chainScriptChain.head ∧
      (stateOf chainScript 3).decision? = some (⟨1, 0⟩, false) ∧
      (stateOf chainScript 5).decision? = some (⟨4, 1⟩, true) ∧
      (stateOf chainScript 10).StandsAt ⟨7, 0⟩ ∧ (stateOf chainScript 13).StandsAt ⟨12, 0⟩ ∧
      (stateOf chainScript 15).sink.text = "two\nend\n" := by
    decide +kernel
  obtain ⟨isSome, inside, joined, runs, first, no, yes, closing, behind, printed⟩ := checked
  have loaded : Program.load chainScript = .ok (programOf chainScript) := Except.eq_ok_getD isSome _
  have reached : (Machine.start (programOf chainScript) {}).machine.after 2 =
      .ok (stateOf chainScript 2) := Except.eq_ok_getD runs _
  exact ⟨loaded, inside, joined, first, no, yes, closing, behind, printed,
    chain_selects loaded {} reached inside⟩

/-- A chain whose first `else` is alone on its line, before an `if` on the next one. -/
def splitScript : String :=
  "bool a = true\nif a \x7b\nsystem println \"one\"\n\x7d
else\nif a \x7b\nsystem println \"two\"\n\x7d
else \x7b\nsystem println \"three\"\n\x7d\nsystem println \"end\"\n"

def splitScriptChain : Chain :=
  .further ⟨1, 0⟩ ⟨⟨1, 2⟩, ⟨3, 0⟩⟩ ⟨4, 0⟩
    (.otherwise ⟨5, 0⟩ ⟨⟨5, 2⟩, ⟨7, 0⟩⟩ ⟨8, 0⟩ ⟨⟨8, 1⟩, ⟨10, 0⟩⟩)

/-- From the block of its first `if` the run does not come behind the chain. -/
theorem chain_stops_splitScript :
    Program.load splitScript = .ok (programOf splitScript) ∧
      splitScriptChain.In (programOf splitScript) ∧
      (stateOf splitScript 2).decision? = some (splitScriptChain.head, true) ∧
      (stateOf splitScript 7).StandsAt splitScriptChain.block.closing ∧
      (programOf splitScript).following splitScriptChain.lastBlock.closing = .ok (some ⟨11, 0⟩) ∧
      ((Machine.start (programOf splitScript) {}).machine.run 100).2 =
        some (.at 5 (.missingBlock "else")) ∧
      ¬ (stateOf splitScript 7).Leaves (some ⟨11, 0⟩) := by
  have checked : (Program.load splitScript).toOption.isSome = true ∧
      splitScriptChain.In (programOf splitScript) ∧
      (stateOf splitScript 2).decision? = some (splitScriptChain.head, true) ∧
      (stateOf splitScript 7).StandsAt splitScriptChain.block.closing ∧
      (programOf splitScript).following splitScriptChain.lastBlock.closing = .ok (some ⟨11, 0⟩) ∧
      ((Machine.start (programOf splitScript) {}).machine.run 100).2 =
        some (.at 5 (.missingBlock "else")) ∧
      ((stateOf splitScript 7).after 3).toOption = none ∧
      ∀ k < 3, ∀ m ∈ ((stateOf splitScript 7).after k).toOption, m.work.index ≠ 11 := by
    decide +kernel
  obtain ⟨isSome, inside, decides, closing, behind, ran, none, elsewhere⟩ := checked
  refine ⟨Except.eq_ok_getD isSome _, inside, decides, closing, behind, ran, ?_⟩
  rintro ⟨m₁, step, -, k, m', reached, here, -, -⟩
  have whole : (stateOf splitScript 7).after (k + 1) = .ok m' := by
    rw [after_succ, step]
    exact reached
  rcases Nat.lt_or_ge (k + 1) 3 with lt | ge
  · refine elsewhere (k + 1) lt m' ?_ here.index
    rw [whole]
    rfl
  · obtain ⟨d, same⟩ := Nat.exists_eq_add_of_le ge
    rw [same, after_add] at whole
    cases stopped : (stateOf splitScript 7).after 3 with
    | error stop => simp [stopped] at whole
    | ok m => simp [stopped, Except.toOption] at none

end Machine

end LineScript
