import LineScript.Proofs.Expression.Precedence
import LineScript.Proofs.Structured.Semantics
import LineScript.Proofs.Working

/-!
# Moves between lines

How a machine goes from one line of a program to another.  `Machine.Shows` relates a machine to the
variables and output of a structured program, and `Machine.Arrives` is the state before a line of
the program, or the end of the run behind the last one.
-/

namespace LineScript

namespace Machine

/-- The machine runs a program with the variables and output of an environment, inside of loops. -/
structure Shows (m : Machine) (p : Program) (env : Env) (loops : List Loop) : Prop where
  program : m.program = p
  symbols : m.symbols = env.symbols
  sink : m.sink.Holds env.output
  loops : m.loops = loops
  calls : m.calls = []
  functions : m.functions = {}

def Arrives (m : Machine) (p : Program) (i : Nat) (env : Env) (loops : List Loop) : Prop :=
  m.Shows p env loops ∧
    match p.lines[i]? with
    | some line => m.WorksOn i line.cells .statement
    | none => m.finished = true

section

variable {m : Machine} {p : Program} {env : Env} {loops : List Loop} {i : Nat} {cells : List Cell}
  {purpose : Purpose}

theorem Breaks.of_after {k : Nat} {m' : Machine} (first : m.after k = .ok m') (breaks : m'.Breaks) :
    m.Breaks := by
  obtain ⟨k', m'', e, reached, failed⟩ := breaks
  exact ⟨k + k', m'', e, by rw [after_trans first, reached], failed⟩

theorem Breaks.of_next {e : RuntimeError} (failed : m.next = .error (.error e)) : m.Breaks :=
  ⟨0, m, e, rfl, failed⟩

theorem Shows.onLine (shows : m.Shows p env loops) (cells : List Cell) (ids : Nat) :
    (m.onLine cells ids).Shows p env loops :=
  ⟨shows.program, shows.symbols, shows.sink, shows.loops, shows.calls, shows.functions⟩

theorem Shows.withWork (shows : m.Shows p env loops) (work : Work) :
    ({ m with work } : Machine).Shows p env loops :=
  ⟨shows.program, shows.symbols, shows.sink, shows.loops, shows.calls, shows.functions⟩

theorem Shows.valueOfName (shows : m.Shows p env loops) : m.valueOfName = env.look := by
  funext name
  rw [Machine.valueOfName, shows.symbols, shows.functions, Env.look, Symbols.lookup]
  cases env.symbols.get? name <;> rfl

theorem WorksOn.onLine (works : m.WorksOn i cells purpose)
    (noBrace : ∀ c, cells.head? = some c → c.token.kind.isScopeBracket = false)
    {cells' : List Cell} (fewer : (cells'.map Cell.ref).Sublist (cells.map Cell.ref)) (ids : Nat) :
    (m.onLine cells' ids).WorksOn i cells' purpose where
  running := works.running
  index := works.index
  holds := rfl
  aim := works.aim
  distinct := works.distinct.sublist fewer
  selected := by
    intro r h
    rw [onLine_selected, works.unselected noBrace] at h
    cases h

/-!
## Going to a line
-/

theorem goToLine_arrives (loaded : p.Loaded) (shows : m.Shows p env loops)
    (running : m.finished = false) (i : Nat) :
    ∃ m', (Action.goToLine i).outcome m = .ok ((), m') ∧ m'.Arrives p i env loops := by
  obtain rfl := shows.program
  cases found : m.program.lines[i]? with
  | none =>
      refine ⟨_, outcome_goToLine_past found,
        ⟨rfl, shows.symbols, shows.sink, shows.loops, shows.calls, shows.functions⟩, ?_⟩
      rw [found]
  | some line =>
      refine ⟨_, outcome_goToLine found, shows.withWork _, ?_⟩
      rw [found]
      exact ⟨running, rfl, rfl, rfl, (loaded.line found).distinct, by simp⟩

theorem goTo_within {line : Line} (shows : m.Shows p env loops) (running : m.finished = false)
    (found : p.lines[i]? = some line) (loaded : line.Loaded) (before : List Cell) {c : Cell}
    {after : List Cell} (split : line.cells = before ++ c :: after) :
    ∃ m', (Action.goTo (some { line := i, token := c.ref })).outcome m = .ok ((), m') ∧
      m'.Shows p env loops ∧ m'.WorksOn i (c :: after) .statement := by
  refine ⟨_, outcome_goTo (shows.program ▸ found) loaded before split, shows.withWork _, ?_⟩
  exact worksOn_goTo running loaded before split

theorem goTo_arrives (loaded : p.Loaded) (shows : m.Shows p env loops)
    (running : m.finished = false) (i : Nat) :
    ∃ m', (Action.goTo (p.firstFrom? i)).outcome m = .ok ((), m') ∧ m'.Arrives p i env loops := by
  rw [Program.firstFrom?_eq loaded]
  cases found : p.lines[i]? with
  | none =>
      refine ⟨_, outcome_halt, ?_, ?_⟩
      · exact ⟨shows.program, shows.symbols, shows.sink, shows.loops, shows.calls, shows.functions⟩
      · rw [found]
  | some line =>
      have filled := (loaded.line found).filled
      cases cells : line.cells with
      | nil => exact absurd cells filled
      | cons c cs =>
          obtain ⟨m', reached, shows', works⟩ := goTo_within shows running found
            (loaded.line found) [] cells
          refine ⟨m', ?_, shows', ?_⟩
          · simpa [Program.headOf, cells] using reached
          · rw [found]
            simpa only [cells] using works

/-!
## Steps on a line
-/

theorem next_alone {x : Cell} (works : m.WorksOn i [x] purpose)
    (inert : x.token.kind.isInert = true) :
    m.next = ((Action.conclude (some x.token)).outcome (m.onLine [] 0)).map Prod.snd := by
  have unselected : m.work.selected = none := by
    refine works.unselected ?_
    intro c hc
    cases hc
    cases kind : x.token.kind with
    | bracket b side =>
        cases b <;> cases side <;> simp_all [TokenKind.isInert, TokenKind.isScopeBracket]
    | _ => rfl
  have unchanged : { m with work := { m.work with selected := none } } = m := by
    rw [← unselected]
  rw [next_first works (.inr rfl), unchanged, Action.act]
  simp only [inert, if_true, Focus.next?, Focus.prev?, List.head?_nil]
  exact congrArg (Except.map Prod.snd) (Action.outcome_bind_of_ok
    (outcome_remove_alone (f := ⟨[], x, []⟩) works.holds.symm rfl rfl))

theorem next_arrives (loaded : p.Loaded) (shows : m.Shows p env loops)
    (works : m.WorksOn i [] .statement) :
    ∃ m', m.next = .ok m' ∧ m'.Arrives p (i + 1) env loops := by
  obtain ⟨m', reached, arrives⟩ := goToLine_arrives loaded shows works.running (i + 1)
  refine ⟨m', ?_, arrives⟩
  rw [next_empty works.running works.holds,
    outcome_conclude_statement works.aim rfl, works.index, reached]
  rfl

end

end Machine

end LineScript
