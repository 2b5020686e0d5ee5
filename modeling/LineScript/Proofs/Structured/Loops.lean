import LineScript.Proofs.Structured.Blocks

/-!
# Loops

A running loop has a frame whose parts name pieces of the header line.  A machine that is about to
test the condition of its innermost loop repeats the body as `repeated` says (`repeated_meets`), so
`while` and `for` implement what they mean.
-/

namespace LineScript

open Machine

def HeaderAt (p : Program) (i : Nat) (part : HeaderPart) (kinds : List TokenKind) : Prop :=
  ∃ line cells, p.lines[i]? = some line ∧
    line.keepRange part.1 part.2 = .ok (line.withCells cells) ∧
    cells.map (fun c => c.token.kind) = kinds ∧ (∀ c ∈ cells, c.Fresh) ∧
    (cells.map Cell.ref).Nodup

structure Frame (p : Program) (i j : Nat) (loop : Loop) (e : Expr) : Prop where
  header : loop.header = i
  calls : loop.calls = 0
  block : ∃ cells brace close, p.BlockAt i cells brace j close ∧
    loop.body = { opening := { line := i, token := brace.ref }
                  closing := { line := j, token := close.ref } }
  condition : ∃ part, loop.condition = some part ∧ HeaderAt p i part e.kinds

/-- The machine is about to reduce a part of a header. -/
def Machine.Heads (m : Machine) (p : Program) (i : Nat) (kinds : List TokenKind)
    (purpose : Purpose) (env : Env) (loops : List Loop) : Prop :=
  m.Shows p env loops ∧ ∃ cells, m.WorksOn i cells purpose ∧
    cells.map (fun c => c.token.kind) = kinds ∧ ∀ c ∈ cells, c.Fresh

section

variable {p : Program} {n i j : Nat} {m : Machine} {env : Env} {loops : List Loop} {loop : Loop}
  {e : Expr}

theorem workOnHeader_heads {part : HeaderPart} {kinds : List TokenKind}
    (at_i : HeaderAt p i part kinds)
    (shows : m.Shows p env loops) (running : m.finished = false) (purpose : Purpose) :
    ∃ m', (Action.workOnHeader i part purpose).outcome m = .ok ((), m') ∧
      m'.Heads p i kinds purpose env loops := by
  obtain ⟨line, cells, found, kept, hkinds, fresh, distinct⟩ := at_i
  obtain rfl := shows.program
  simp only [Action.workOnHeader, Action.outcome_bind, Action.outcome_get, Except.bind_ok,
    Action.outcome_ofFault, Program.lineAt_eq found, Except.bind_eq_bind, kept, orFault,
    Except.mapError_ok_eq, Except.map_ok_eq, Action.outcome_modify]
  exact ⟨_, rfl, shows.withWork _, cells, ⟨running, rfl, rfl, rfl, distinct, by simp⟩, hkinds,
    fresh⟩

theorem testLoop_heads (frame : Frame p i j loop e) (shows : m.Shows p env (loop :: loops))
    (running : m.finished = false) :
    ∃ m', Action.testLoop.outcome m = .ok ((), m') ∧
      m'.Heads p i e.kinds .loopCondition env (loop :: loops) := by
  obtain ⟨part, condition, at_i⟩ := frame.condition
  obtain ⟨m', moved, heads⟩ := workOnHeader_heads at_i shows running .loopCondition
  refine ⟨m', ?_, heads⟩
  simp only [Action.testLoop, Action.outcome_bind, Action.outcome_get, Except.bind_ok, shows.loops,
    condition, frame.header, moved]

theorem leaveLoop_arrives (loaded : p.Loaded) (frame : Frame p i j loop e)
    (shows : m.Shows p env (loop :: loops)) (running : m.finished = false) :
    ∃ m', Action.leaveLoop.outcome m = .ok ((), m') ∧
      m'.Arrives p (j + 1) { env with symbols := env.symbols.unwind loop.scopes } loops := by
  obtain ⟨cells, brace, close, block, body⟩ := frame.block
  have left : ({ m with loops, symbols := m.symbols.unwind loop.scopes } : Machine).Shows p
      { env with symbols := env.symbols.unwind loop.scopes } loops :=
    ⟨shows.program, by simp only [shows.symbols], shows.sink, rfl, shows.calls, shows.functions⟩
  obtain ⟨m', moved, arrives⟩ := goTo_arrives loaded left running (j + 1)
  refine ⟨m', ?_, arrives⟩
  have following : m.program.following loop.body.closing = .ok (p.firstFrom? (j + 1)) := by
    rw [shows.program, body]
    exact block.following
  simp only [Action.leaveLoop, Action.outcome_bind, Action.outcome_get, Except.bind_ok, shows.loops,
    Action.outcome_modify, Action.outcome_emit, Action.outcome_ofFault, following, orFault,
    Except.mapError_ok_eq, Except.map_ok_eq]
  exact moved

def stepOrTest (loop : Loop) : Action Unit :=
  match loop.step with
  | some part => Action.workOnHeader loop.header part .loopStep
  | none => Action.testLoop

theorem outcome_nextIteration (shows : m.Shows p env (loop :: loops)) :
    Action.nextIteration.outcome m = (stepOrTest loop).outcome
      { m with symbols := m.symbols.unwind (loop.scopes + 1) } := by
  simp only [Action.nextIteration, Action.outcome_bind, Action.outcome_get, Except.bind_ok,
    shows.loops, Action.outcome_setSymbols]
  rfl

def Steps (p : Program) (n i : Nat) (loop : Loop) (e : Expr) (step : Env → Result) : Prop :=
  ∀ (m : Machine) (env : Env) (loops : List Loop), m.Shows p env (loop :: loops) →
    m.finished = false →
    ∃ m', (stepOrTest loop).outcome m = .ok ((), m') ∧
      m'.Meets n (fun ending env' m'' => ending = .normal ∧
        m''.Heads p i e.kinds .loopCondition env' (loop :: loops)) (step env)

theorem nextIteration_meets (env : Env) {step : Env → Result} (steps : Steps p n i loop e step)
    {symbols : Symbols} (shows : m.Shows p { env with symbols } (loop :: loops))
    (running : m.finished = false) (unwound : symbols.unwind (loop.scopes + 1) = env.symbols) :
    ∃ m', Action.nextIteration.outcome m = .ok ((), m') ∧
      m'.Meets n (fun ending env' m'' => ending = .normal ∧
        m''.Heads p i e.kinds .loopCondition env' (loop :: loops)) (step env) := by
  have shows' : ({ m with symbols := m.symbols.unwind (loop.scopes + 1) } : Machine).Shows p env
      (loop :: loops) :=
    ⟨shows.program, by simp only [shows.symbols, unwound], shows.sink, shows.loops, shows.calls,
      shows.functions⟩
  obtain ⟨m', moved, meets⟩ := steps _ env loops shows' running
  exact ⟨m', by rw [outcome_nextIteration shows, moved], meets⟩

/-!
## Iterations
-/

def LoopEnds (p : Program) (j : Nat) (loops : List Loop) (ending : Ending) (env : Env)
    (m : Machine) : Prop :=
  ending = .normal ∧ m.Arrives p (j + 1) env.pop loops

def Tests (m : Machine) (p : Program) (i : Nat) (loop : Loop) (e : Expr) (env : Env)
    (loops : List Loop) : Prop :=
  m.Heads p i e.kinds .loopCondition env (loop :: loops) ∧ env.symbols.depth = loop.scopes + 1

theorem next_signal {s : Signal} (frame : Frame p i j loop e)
    (signals : m.Signals p s env (loop :: loops)) :
    ∃ m' symbols, m'.Shows p { env with symbols } (loop :: loops) ∧ m'.finished = false ∧
      (∀ k ≤ env.symbols.depth, symbols.unwind k = env.symbols.unwind k) ∧
      m.next = (match s with
        | .break => Action.leaveLoop.outcome m'
        | .continue => Action.nextIteration.outcome m').map Prod.snd := by
  obtain ⟨i', x, symbols, works, kind, shows, same⟩ := signals
  have inert : x.token.kind.isInert = true := by rw [kind]; rfl
  refine ⟨m.onLine [] 0, symbols, shows.onLine _ _, works.running, same, ?_⟩
  have purpose : (m.onLine [] 0).work.purpose = .statement := works.aim
  have inside : (m.onLine [] 0).loops = loop :: loops := shows.loops
  have depth : loop.calls = (m.onLine [] 0).calls.length := by
    rw [frame.calls]
    simp [onLine, shows.calls]
  have obeys : (Action.conclude (some x.token)).outcome (m.onLine [] 0) =
      (Action.obeySignal s x.token.line).outcome (m.onLine [] 0) := by
    simp [Action.conclude, Action.outcome_bind, purpose, Action.signalOf?, kind]
  rw [next_alone works inert, obeys]
  simp only [Action.obeySignal, Action.outcome_bind, Action.outcome_get, Except.bind_ok, inside,
    if_pos depth]
  cases s <;> rfl

section

variable {body step : Env → Result} {k : Nat}

/-- One run through the body, if the loop does what it means from the next test on. -/
theorem iterate_meets (loaded : p.Loaded) (frame : Frame p i j loop e) (keeps : Keeps body)
    (hbody : Implements p n (i + 1) j body) (steps : Steps p n i loop e step)
    (keepsStep : Keeps step) (le : k ≤ n)
    (again : ∀ (m : Machine) (env : Env), Tests m p i loop e env loops →
      m.Meets k (LoopEnds p j loops) (repeated e (enclosed body) step k env))
    (depth : env.symbols.depth = loop.scopes + 1)
    (arrives : m.Arrives p (i + 1) env.push (loop :: loops)) :
    m.Meets k (LoopEnds p j loops) ((enclosed body env).iterate fun env =>
      (step env).andThen (repeated e (enclosed body) step k)) := by
  obtain ⟨cells, brace, close, block, extent⟩ := frame.block
  have within : Within (loop :: loops) j := by
    rintro loop' rest ⟨⟩
    exact Nat.le_of_eq (by rw [extent])
  -- After the body, the end of the iteration leads to the next test.
  have goesOn : ∀ (m' : Machine) (env' : Env), env'.symbols.depth = loop.scopes + 1 →
      m'.Meets n (fun ending env'' m'' => ending = .normal ∧
        m''.Heads p i e.kinds .loopCondition env'' (loop :: loops)) (step env') →
      m'.Meets k (LoopEnds p j loops)
        ((step env').andThen (repeated e (enclosed body) step k)) := by
    intro m' env' depth' meets
    refine (meets.fewer le).andThen ?_ ?_
    · rintro env'' m'' done ⟨-, heads⟩
      exact again m'' env'' ⟨heads, by rw [keepsStep _ _ _ done, depth']⟩
    · rintro s env'' m'' _ ⟨normal, -⟩
      cases normal
  have meets := hbody m env.push (loop :: loops) arrives within
  rw [enclosed]
  cases result : body env.push with
  | done ending env' =>
      have depth' : env'.symbols.depth = loop.scopes + 2 := by
        rw [keeps _ _ _ result, Env.push, Symbols.depth_push, depth]
      have popped : env'.pop.symbols.depth = loop.scopes + 1 := by
        rw [Env.pop, Symbols.depth_pop, depth']
        rfl
      rw [result] at meets
      obtain ⟨k', m', reached, ends⟩ := meets
      refine Meets.after reached ?_
      cases ending with
      | normal =>
          obtain ⟨line, found, lineCells, -⟩ := block.closes
          have works := Arrives.works ends found
          have shows := ends.1
          rw [lineCells] at works
          have last : Action.endsLoop m' j = true := by
            simp [Action.endsLoop, shows.loops, shows.calls, extent, frame.calls]
          obtain ⟨m'', moved, meets'⟩ := nextIteration_meets env'.pop steps shows.closed
            works.running (Symbols.unwind_of_le (Nat.le_of_eq popped))
          refine Meets.next ?_ (goesOn m'' _ popped meets')
          rw [next_close works block.closing shows.calls, if_pos last, moved]
          rfl
      | signal s =>
          obtain ⟨m₁, symbols, shows, running, same, step₁⟩ := next_signal frame ends
          have unwound : symbols.unwind (loop.scopes + 1) = env'.pop.symbols := by
            rw [same _ (by omega), Symbols.unwind_one depth']
            rfl
          cases s with
          | «break» =>
              obtain ⟨m₂, moved, arrives₂⟩ := leaveLoop_arrives loaded frame shows running
              have left : symbols.unwind loop.scopes = env'.pop.pop.symbols := by
                rw [same _ (by omega), Symbols.unwind_of_lt (by omega)]
                exact Symbols.unwind_one popped
              simp only [left] at arrives₂
              refine ⟨1, m₂, ?_, rfl, arrives₂⟩
              rw [after_one, step₁]
              simp only [moved]
              rfl
          | «continue» =>
              obtain ⟨m₂, moved, meets'⟩ := nextIteration_meets env'.pop steps shows
                running unwound
              refine Meets.next ?_ (goesOn m₂ _ popped meets')
              rw [step₁]
              simp only [moved]
              rfl
  | failed =>
      rw [result] at meets
      exact meets
  | unfinished =>
      rw [result] at meets
      exact Meets.fewer (Q := LoopEnds p j loops) (r := .unfinished) meets le

/-- A loop does what it means from every test of its condition on. -/
theorem repeated_meets (loaded : p.Loaded) (legal : e.Legal) (frame : Frame p i j loop e)
    (keeps : Keeps body) (hbody : Implements p n (i + 1) j body)
    (steps : Steps p n i loop e step) (keepsStep : Keeps step) (le : k ≤ n)
    (tests : Tests m p i loop e env loops) :
    m.Meets k (LoopEnds p j loops) (repeated e (enclosed body) step k env) := by
  induction k generalizing m env with
  | zero =>
      obtain ⟨⟨-, cells, works, -⟩, -⟩ := tests
      exact ⟨0, m, Nat.le_refl 0, rfl, works.running⟩
  | succ k ih =>
      obtain ⟨⟨shows, cells, works, kinds, fresh⟩, depth⟩ := tests
      rw [repeated]
      rcases evaluates legal shows [] [] (by simpa using works) kinds
        fresh (by simp) (by simp) (by simp) with
        ⟨cause, failed, breaks⟩ | ⟨k₁, m₁, x, reached, shows₁, works₁, reduced⟩
      · rw [Env.test_eq, failed]
        exact breaks
      · have purpose : (m₁.onLine [] 0).work.purpose = .loopCondition := works₁.aim
        have inside : (m₁.onLine [] 0).loops = loop :: loops := shows₁.loops
        have decides : m₁.next =
            ((Action.decideLoop (some x.token)).outcome (m₁.onLine [] 0)).map Prod.snd := by
          rw [next_alone works₁ reduced.inert]
          simp [Action.conclude, Action.outcome_bind, purpose]
        simp only [Action.decideLoop, Action.outcome_bind, Action.outcome_get, Except.bind_ok,
          Action.outcome_ofExcept, valueOf_onLine, inside] at decides
        rcases reduced.test with ⟨taken, tested, value⟩ | ⟨cause, v, tested, value, other⟩ |
          ⟨cause, err, tested, value⟩
        · rw [tested]
          rw [value] at decides
          simp only [Except.map_ok_eq, Except.bind_ok, Action.outcome_ofCause, Value.asBool,
            Except.mapError_ok_eq] at decides
          cases taken with
          | true =>
              obtain ⟨hcells, brace, close, block, extent⟩ := frame.block
              obtain ⟨line, found, lineCells, lineLoaded⟩ := block.opens
              obtain ⟨m₂, moved, shows₂, works₂⟩ := goTo_within (shows₁.onLine [] 0)
                works₁.running found lineLoaded hcells lineCells
              obtain ⟨m₃, opened, arrives⟩ := opens_arrives loaded shows₂ works₂ block.opening
              have first : m.after (k₁ + 1) = .ok m₂ := by
                rw [after_trans reached, after_one, decides]
                simp only [if_true, extent, moved]
                rfl
              have meets := iterate_meets loaded frame keeps hbody steps keepsStep (by omega)
                (fun m env tests => ih (by omega) tests) depth arrives
              exact (Meets.of_after first (Meets.after opened meets)).fewer (by omega)
          | false =>
              obtain ⟨m₂, moved, arrives⟩ := leaveLoop_arrives loaded frame (shows₁.onLine [] 0)
                works₁.running
              have left : env.symbols.unwind loop.scopes = env.pop.symbols :=
                Symbols.unwind_one depth
              rw [left] at arrives
              refine ⟨k₁ + 1, m₂, ?_, rfl, arrives⟩
              rw [after_trans reached, after_one, decides]
              simp only [Bool.false_eq_true, if_false, moved]
              rfl
        · rw [tested]
          refine Breaks.of_after reached (Breaks.of_next
            (e := { cause := .mismatch (.notBool v), line := x.token.line }) ?_)
          rw [decides, value]
          cases v with
          | bool b => exact absurd rfl (other b)
          | _ => rfl
        · rw [tested]
          refine Breaks.of_after reached (Breaks.of_next (e := err) ?_)
          rw [decides, value]
          rfl

end

end

/-!
## Headers
-/

def partOf (cells : List Cell) : Option HeaderPart :=
  match cells.head?, cells.getLast? with
  | some first, some last => some (first.ref, last.ref)
  | _, _ => none

theorem headerAt_partOf {p : Program} {i : Nat} {line : Line} (found : p.lines[i]? = some line)
    (loaded : line.Loaded) (pre cells post : List Cell) (split : line.cells = pre ++ cells ++ post)
    (filled : cells ≠ []) {kinds : List TokenKind}
    (hkinds : cells.map (fun c => c.token.kind) = kinds) :
    ∃ part, partOf cells = some part ∧ HeaderAt p i part kinds := by
  obtain ⟨first, hfirst⟩ := Option.isSome_iff_exists.1 (List.isSome_head?.2 filled)
  obtain ⟨last, hlast⟩ := Option.isSome_iff_exists.1 (List.getLast?_isSome.2 filled)
  refine ⟨(first.ref, last.ref), by simp [partOf, hfirst, hlast], line, cells, found,
    loaded.keepRange split hfirst hlast, hkinds, ?_, ?_⟩
  · intro c hc
    exact loaded.fresh c (by simp [split, hc])
  · have distinct := loaded.distinct
    rw [Line.refs, split] at distinct
    refine distinct.sublist (List.Sublist.map _ ?_)
    exact (List.sublist_append_right pre cells).trans (List.sublist_append_left _ post)

section

variable {p : Program} {n i j : Nat} {m : Machine} {env : Env} {loops : List Loop} {e : Expr}

theorem beginLoop_shows (shows : m.Shows p env loops) (loop : Loop) :
    ∃ m', (Action.beginLoop loop).outcome m = .ok ((), m') ∧
      m'.Shows p env.push (loop :: loops) ∧ m'.finished = m.finished := by
  simp only [Action.beginLoop, Action.newScope, Action.outcome_bind, Action.outcome_emit,
    Except.bind_ok, Action.outcome_modify]
  refine ⟨_, rfl, ⟨shows.program, ?_, shows.sink, ?_, shows.calls, shows.functions⟩, rfl⟩
  · simp only [shows.symbols]
    rfl
  · simp only [shows.loops]

/-!
## `while`
-/

theorem whileCondition_eq {line : Line} (loaded : line.Loaded) {wc brace : Cell} {cells : List Cell}
    (lineCells : line.cells = wc :: cells ++ [brace]) (filled : cells ≠ []) :
    Action.whileCondition line i wc.ref { line := i, token := brace.ref } = .ok (partOf cells) := by
  obtain ⟨first, hfirst⟩ := Option.isSome_iff_exists.1 (List.isSome_head?.2 filled)
  obtain ⟨last, hlast⟩ := Option.isSome_iff_exists.1 (List.getLast?_isSome.2 filled)
  have firstMem : first ∈ cells := List.mem_of_head? hfirst
  have lastMem : last ∈ cells := List.mem_of_getLast? hlast
  have distinct := loaded.distinct
  rw [Line.refs, lineCells, List.cons_append, List.map_cons, List.map_append, List.nodup_cons,
    List.nodup_append] at distinct
  have notBrace : first.ref ≠ brace.ref :=
    distinct.2.2.2 first.ref (List.mem_map_of_mem firstMem) brace.ref (by simp)
  have notKeyword : last.ref ≠ wc.ref := by
    intro same
    refine distinct.1 ?_
    rw [← same]
    exact List.mem_append_left _ (List.mem_map_of_mem lastMem)
  have next : line.next wc.ref = .ok (some first.ref) := by
    have here : line.cells = [] ++ wc :: (cells ++ [brace]) := lineCells
    simp [Line.next, loaded.focus [] here, Focus.next?, hfirst]
  have prev : line.prev brace.ref = .ok (some last.ref) := by
    have here : line.cells = (wc :: cells) ++ brace :: [] := lineCells
    simp [Line.prev, loaded.focus (wc :: cells) here, Focus.prev?, hlast]
  simp [Action.whileCondition, next, prev, notBrace, notKeyword, partOf, hfirst, hlast]

theorem implements_while (loaded : p.Loaded) (legal : e.Legal) {cells : List Cell}
    {wc brace close : Cell} (block : p.BlockAt i (wc :: cells) brace j close)
    (kind : wc.token.kind = .keyword .while) (kinds : cells.map (fun c => c.token.kind) = e.kinds)
    {body : Env → Result} (keeps : Keeps body) (hbody : Implements p n (i + 1) j body) :
    Implements p n i (j + 1) (enclosed (repeated e (enclosed body) (.done .normal) n)) := by
  intro m env loops arrives _
  obtain ⟨line, found, lineCells, lineLoaded⟩ := block.opens
  have works := arrives.works found
  have shows := arrives.1
  have fresh := lineLoaded.fresh
  rw [lineCells] at works fresh
  have filled : cells ≠ [] := by
    rintro rfl
    exact e.kinds_ne_nil kinds.symm
  obtain ⟨part, hpart, at_i⟩ := headerAt_partOf found lineLoaded [wc] cells [brace] lineCells
    filled kinds
  let loop : Loop :=
    { form := .while
      header := i
      init := none
      condition := some part
      step := none
      body := { opening := { line := i, token := brace.ref }
                closing := { line := j, token := close.ref } }
      scopes := env.symbols.depth
      calls := 0 }
  have frame : Frame p i j loop e :=
    ⟨rfl, rfl, ⟨_, brace, close, block, rfl⟩, ⟨part, rfl, at_i⟩⟩
  obtain ⟨m₁, begun, shows₁, running₁⟩ := beginLoop_shows shows loop
  rw [works.running] at running₁
  obtain ⟨m₂, tested, heads⟩ := testLoop_heads frame shows₁ running₁
  have step : m.next = .ok m₂ := by
    rw [next_control works fresh (by rw [kind]; rfl) (by rw [kind]; rfl),
      Action.outcome_act (by simp [kind, TokenKind.isInert])]
    obtain rfl := shows.program
    obtain rfl := works.index
    have extent : m.program.blockAfter (m.positionOf wc) = _ := block.blockAfter [] rfl
    have condition := whileCondition_eq (i := m.work.index) lineLoaded lineCells filled
    rw [hpart] at condition
    have begun' := begun
    simp only [loop, ← shows.symbols] at begun'
    simp only [Action.perform, kind, Action.applyKeyword, Action.startWhile, Action.outcome_bind,
      Action.outcome_get, Except.bind_ok, Action.outcome_ofExcept, extent, Except.map_ok_eq,
      Action.outcome_ofFault, Program.lineAt_eq found, orFault, Except.mapError_ok_eq, condition,
      shows.calls, List.length_nil, begun', tested]
  have steps : Steps p n i loop e (.done .normal) := by
    intro m env loops shows running
    obtain ⟨m', tested, heads⟩ := testLoop_heads frame shows running
    exact ⟨m', tested, 0, m', rfl, rfl, heads⟩
  have keepsStep : Keeps (.done .normal) := by
    rintro _ _ _ ⟨⟩
    rfl
  have meets := repeated_meets (k := n) loaded legal frame keeps hbody steps keepsStep
    (Nat.le_refl n) ⟨heads, rfl⟩
  refine Meets.leave (Meets.next step (meets.further ?_))
  rintro ending env' m' _ ⟨rfl, arrives'⟩
  exact ⟨0, m', rfl, arrives'⟩

/-!
## `for`
-/

theorem headerParts_semicolon {c : Cell} (kind : c.token.kind = .semicolon)
    (part : Option HeaderPart) (rest : List Cell) :
    Action.headerParts part (c :: rest) = part :: Action.headerParts none rest := by
  cases part <;> simp [Action.headerParts, kind]

theorem headerParts_some {cells : List Cell} (plain : ∀ c ∈ cells, c.token.kind ≠ .semicolon)
    (first last : Ref) (rest : List Cell) :
    Action.headerParts (some (first, last)) (cells ++ rest) =
      Action.headerParts (some (first, (cells.getLast?.map Cell.ref).getD last)) rest := by
  induction cells generalizing last with
  | nil => rfl
  | cons c cells ih =>
      have here : c.token.kind ≠ .semicolon := plain c (by simp)
      rw [List.cons_append, Action.headerParts, if_neg here,
        ih (fun d hd => plain d (by simp [hd]))]
      cases cells with
      | nil => rfl
      | cons d cells => simp [List.getLast?_cons]

theorem headerParts_plain {cells : List Cell} (plain : ∀ c ∈ cells, c.token.kind ≠ .semicolon)
    (rest : List Cell) :
    Action.headerParts none (cells ++ rest) = Action.headerParts (partOf cells) rest := by
  cases cells with
  | nil => rfl
  | cons c cells =>
      have here : c.token.kind ≠ .semicolon := plain c (by simp)
      rw [List.cons_append, Action.headerParts, if_neg here,
        headerParts_some (fun d hd => plain d (by simp [hd]))]
      cases cells with
      | nil => rfl
      | cons d cells => simp [partOf, List.getLast?_cons]

def Passes (cells : List Cell) : Prop :=
  ∀ rest, Line.splitClose? .paren 0 (cells ++ rest) =
    (Line.splitClose? .paren 0 rest).map fun (inner, close, after) => (cells ++ inner, close, after)

theorem Passes.append {a b : List Cell} (ha : Passes a) (hb : Passes b) : Passes (a ++ b) := by
  intro rest
  rw [List.append_assoc, ha, hb]
  cases Line.splitClose? .paren 0 rest <;> simp

theorem Passes.cons {c : Cell} {cells : List Cell}
    (plain : ∀ s, c.token.kind ≠ .bracket .paren s) (h : Passes cells) : Passes (c :: cells) := by
  intro rest
  rw [List.cons_append, Tree.splitClose?_skip plain, h]
  cases Line.splitClose? .paren 0 rest <;> simp

theorem passes_expr {cells : List Cell} (legal : e.Legal)
    (kinds : cells.map (fun c => c.token.kind) = e.kinds) (fresh : ∀ c ∈ cells, c.Fresh) :
    Passes cells := by
  have shallow := legal.shallow
  obtain ⟨t, rfl, tree⟩ := Expr.exists_tree kinds fresh legal.wellFormed.composed
    (by omega : e.depth + 0 ≤ Expr.maxDepth)
  exact fun rest => Tree.splitClose?_cells tree.ranked 0 rest

theorem passes_assignment {a : Assignment} {cells : List Cell} (legal : a.Legal)
    (kinds : cells.map (fun c => c.token.kind) = a.kinds) (fresh : ∀ c ∈ cells, c.Fresh) :
    Passes cells := by
  obtain ⟨types, xc, oc, rest, rfl, hx, ho, htypes, hrest⟩ := assignment_cells kinds
  have value := passes_expr legal.value hrest (fun c hc => fresh c (by simp [hc]))
  have tail : Passes (xc :: oc :: rest) := .cons (by simp [hx]) (.cons (by simp [ho]) value)
  clear fresh kinds
  cases declared : a.declared with
  | none =>
      rw [declared] at htypes
      obtain rfl := List.map_eq_nil_iff.1 htypes
      exact tail
  | some t =>
      rw [declared] at htypes
      obtain ⟨tc, rfl, ht⟩ := List.map_eq_singleton_iff.1 htypes
      exact .cons (by simp [ht]) tail

theorem Expr.noSemicolon (e : Expr) : ∀ k ∈ e.kinds, k ≠ .semicolon := by
  induction e with
  | literal v => simp [kinds]
  | name t => simp [kinds]
  | group e ih => simpa [kinds, or_imp, forall_and] using ih
  | before op e ih => simpa [kinds] using ih
  | between op l r ihl ihr => simpa [kinds, or_imp, forall_and] using ⟨ihl, ihr⟩

theorem Assignment.noSemicolon (a : Assignment) : ∀ k ∈ a.kinds, k ≠ .semicolon := by
  intro k member
  simp only [kinds, List.mem_append, List.mem_map, List.mem_cons] at member
  rcases member with ⟨t, -, rfl⟩ | rfl | rfl | member
  · simp
  · simp
  · simp
  · exact a.value.noSemicolon k member

theorem noSemicolon_cells {cells : List Cell} {kinds : List TokenKind}
    (hkinds : cells.map (fun c => c.token.kind) = kinds) (plain : ∀ k ∈ kinds, k ≠ .semicolon) :
    ∀ c ∈ cells, c.token.kind ≠ .semicolon := by
  intro c hc
  exact plain _ (hkinds ▸ List.mem_map.2 ⟨c, hc, rfl⟩)

theorem headerAssign_meets {loop : Loop} {a : Assignment} {purpose : Purpose}
    (frame : Frame p i j loop e) (legal : a.Legal)
    (part : purpose = .loopInit ∨ purpose = .loopStep)
    (heads : m.Heads p i a.kinds purpose env (loop :: loops)) :
    m.Meets n (fun ending env' m' => ending = .normal ∧
      m'.Heads p i e.kinds .loopCondition env' (loop :: loops)) (a.exec env) := by
  obtain ⟨shows, cells, works, kinds, fresh⟩ := heads
  refine (assigns_meets legal shows works kinds fresh n).further ?_
  rintro ending env' m₁ - ⟨rfl, shows₁, x, v, works₁, kind⟩
  have inert : x.token.kind.isInert = true := by rw [kind]; rfl
  obtain ⟨m₂, tested, heads₂⟩ := testLoop_heads frame (shows₁.onLine [] 0) works₁.running
  have aim : (m₁.onLine [] 0).work.purpose = purpose := works₁.aim
  refine ⟨1, m₂, ?_, rfl, heads₂⟩
  rw [after_one, next_alone works₁ inert]
  rcases part with rfl | rfl
  · simp [Action.conclude, Action.outcome_bind, aim, tested]
  · simp [Action.conclude, Action.outcome_bind, aim, tested]

structure ForHeader (p : Program) (i : Nat) (init : Assignment) (e : Expr) (step : Assignment)
    (inner : List Cell) (parts : HeaderPart × HeaderPart × HeaderPart) : Prop where
  passes : Passes inner
  parted : Action.headerParts none inner = [some parts.1, some parts.2.1, some parts.2.2]
  init : HeaderAt p i parts.1 init.kinds
  condition : HeaderAt p i parts.2.1 e.kinds
  step : HeaderAt p i parts.2.2 step.kinds

theorem exists_forHeader {init step : Assignment} (hinit : init.Legal) (he : e.Legal)
    (hstep : step.Legal) {line : Line} (found : p.lines[i]? = some line) (loaded : line.Loaded)
    {inner : List Cell} (pre post : List Cell) (split : line.cells = pre ++ inner ++ post)
    (kinds : inner.map (fun c => c.token.kind) =
      init.kinds ++ .semicolon :: (e.kinds ++ .semicolon :: step.kinds)) :
    ∃ parts, ForHeader p i init e step inner parts := by
  obtain ⟨ic, tail, rfl, hi, htail⟩ := List.map_eq_append_iff.1 kinds
  obtain ⟨s₁, tail, rfl, hs₁, htail⟩ := List.map_eq_cons_iff.1 htail
  obtain ⟨ec, tail, rfl, hec, htail⟩ := List.map_eq_append_iff.1 htail
  obtain ⟨s₂, sc, rfl, hs₂, hsc⟩ := List.map_eq_cons_iff.1 htail
  have fresh : ∀ c ∈ ic ++ s₁ :: (ec ++ s₂ :: sc), c.Fresh := by
    intro c hc
    exact loaded.fresh c (by rw [split]; simp only [List.mem_append] at hc ⊢; exact .inl (.inr hc))
  have filled : ∀ {cells : List Cell} {ks : List TokenKind},
      cells.map (fun c => c.token.kind) = ks → ks ≠ [] → cells ≠ [] := by
    rintro cells ks hks hne rfl
    exact hne hks.symm
  obtain ⟨pi, hpi, atI⟩ := headerAt_partOf found loaded pre ic
    (s₁ :: (ec ++ s₂ :: sc) ++ post) (by simp [split]) (filled hi init.kinds_ne_nil) hi
  obtain ⟨pe, hpe, atE⟩ := headerAt_partOf found loaded (pre ++ ic ++ [s₁]) ec (s₂ :: sc ++ post)
    (by simp [split]) (filled hec e.kinds_ne_nil) hec
  obtain ⟨ps, hps, atS⟩ := headerAt_partOf found loaded (pre ++ ic ++ s₁ :: ec ++ [s₂]) sc
    post (by simp [split]) (filled hsc step.kinds_ne_nil) hsc
  refine ⟨(pi, pe, ps), ⟨?_, ?_, atI, atE, atS⟩⟩
  · refine (passes_assignment hinit hi fun c hc => fresh c (by simp [hc])).append
      (.cons (by simp [hs₁]) ?_)
    refine (passes_expr he hec fun c hc => fresh c (by simp [hc])).append
      (.cons (by simp [hs₂]) ?_)
    exact passes_assignment hstep hsc fun c hc => fresh c (by simp [hc])
  · have last := headerParts_plain (noSemicolon_cells hsc step.noSemicolon) []
    rw [List.append_nil] at last
    rw [headerParts_plain (noSemicolon_cells hi init.noSemicolon), headerParts_semicolon hs₁,
      headerParts_plain (noSemicolon_cells hec e.noSemicolon), headerParts_semicolon hs₂, last, hpi,
      hpe, hps]
    rfl

theorem implements_for (loaded : p.Loaded) {init step : Assignment} (hinit : init.Legal)
    (he : e.Legal) (hstep : step.Legal) {inner : List Cell} {fc oc cc brace close : Cell}
    (block : p.BlockAt i (fc :: oc :: inner ++ [cc]) brace j close)
    (kind : fc.token.kind = .keyword .for) (opens : oc.token.kind = .bracket .paren .opening)
    (closes : cc.token.kind = .bracket .paren .closing)
    (kinds : inner.map (fun c => c.token.kind) =
      init.kinds ++ .semicolon :: (e.kinds ++ .semicolon :: step.kinds))
    {body : Env → Result} (keeps : Keeps body) (hbody : Implements p n (i + 1) j body) :
    Implements p n i (j + 1) (enclosed fun env =>
      (init.exec env).andThen (repeated e (enclosed body) step.exec n)) := by
  intro m env loops arrives _
  obtain ⟨line, found, lineCells, lineLoaded⟩ := block.opens
  have works := arrives.works found
  have shows := arrives.1
  have fresh := lineLoaded.fresh
  rw [lineCells] at works fresh
  obtain ⟨parts, header⟩ := exists_forHeader hinit he hstep found lineLoaded [fc, oc]
    [cc, brace] (by simp [lineCells]) kinds
  let loop : Loop :=
    { form := .for
      header := i
      init := some parts.1
      condition := some parts.2.1
      step := some parts.2.2
      body := { opening := { line := i, token := brace.ref }
                closing := { line := j, token := close.ref } }
      scopes := env.symbols.depth
      calls := 0 }
  have frame : Frame p i j loop e :=
    ⟨rfl, rfl, ⟨_, brace, close, block, rfl⟩, ⟨_, rfl, header.condition⟩⟩
  obtain ⟨m₁, begun, shows₁, running₁⟩ := beginLoop_shows shows loop
  rw [works.running] at running₁
  obtain ⟨m₂, begins, heads⟩ := workOnHeader_heads header.init shows₁ running₁ .loopInit
  have next : m.next = .ok m₂ := by
    rw [next_control works fresh (by rw [kind]; rfl) (by rw [kind]; rfl),
      Action.outcome_act (by simp [kind, TokenKind.isInert])]
    obtain rfl := shows.program
    obtain rfl := works.index
    have start : line.focus fc.ref = .ok ⟨[], fc, oc :: (inner ++ [cc, brace])⟩ :=
      lineLoaded.focus [] (by simp [lineCells])
    have split : Line.enclosed .paren oc (inner ++ [cc, brace]) =
      .ok (some (inner, cc, [brace])) := by
      rw [Line.enclosed_eq opens, header.passes, Tree.splitClose?_here closes]
      simp
    have extent : m.program.blockAfter { line := m.work.index, token := cc.ref } = _ :=
      block.blockAfter (fc :: oc :: inner) rfl
    have begun' := begun
    simp only [loop, ← shows.symbols] at begun'
    simp only [Action.perform, kind, Action.applyKeyword, Action.startFor, Action.outcome_bind,
      Action.outcome_get, Except.bind_ok, Action.outcome_ofExcept, extent, Except.map_ok_eq,
      Action.outcome_ofFault, Program.lineAt_eq found, orFault, Except.mapError_ok_eq, start, opens,
      ne_eq, not_true, if_false, split, header.parted, shows.calls, List.length_nil, begun', begins]
  have steps : Steps p n i loop e step.exec := by
    intro m env loops shows running
    obtain ⟨m', moved, heads⟩ := workOnHeader_heads header.step shows running .loopStep
    exact ⟨m', moved, headerAssign_meets frame hstep (.inr rfl) heads⟩
  refine Meets.leave (Meets.next next (Meets.further (Q := LoopEnds p j loops) ?_ ?_))
  · refine (headerAssign_meets frame hinit (.inl rfl) heads).andThen ?_ ?_
    · rintro env' m' done ⟨-, heads'⟩
      refine repeated_meets (k := n) loaded he frame keeps hbody steps step.keeps (Nat.le_refl n)
        ⟨heads', ?_⟩
      rw [init.keeps _ _ _ done]
      rfl
    · rintro s env' m' - ⟨normal, -⟩
      cases normal
  · rintro ending env' m' _ ⟨rfl, arrives'⟩
    exact ⟨0, m', rfl, arrives'⟩

end

end LineScript
