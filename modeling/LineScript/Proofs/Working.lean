import LineScript.Proofs.Layout

/-!
# Working lines

`Machine.WorksOn` says which tokens a machine is about to reduce.  This module tells which of them
acts first and how a machine goes on with another line.
-/

namespace LineScript.Machine

structure WorksOn (m : Machine) (i : Nat) (cells : List Cell) (purpose : Purpose) : Prop where
  running : m.finished = false
  index : m.work.index = i
  holds : m.work.line.cells = cells
  aim : m.work.purpose = purpose
  distinct : (cells.map Cell.ref).Nodup
  /-- A token can only be selected if it acts first anyway. -/
  selected : ∀ r, m.work.selected = some r →
    ∃ c cs, cells = c :: cs ∧ c.ref = r ∧ c.token.kind = .openBrace

variable {m m' : Machine} {i : Nat} {cells : List Cell} {purpose : Purpose}

theorem WorksOn.unselected (works : m.WorksOn i cells purpose)
    (noBrace : ∀ c, cells.head? = some c → c.token.kind.isScopeBracket = false) :
    m.work.selected = none := by
  cases h : m.work.selected with
  | none => rfl
  | some r =>
      obtain ⟨c, cs, rfl, -, kind⟩ := works.selected r h
      have := noBrace c rfl
      simp [kind, TokenKind.openBrace, TokenKind.isScopeBracket] at this

theorem WorksOn.ready (works : m.WorksOn i cells purpose)
    (noBrace : ∀ c, cells.head? = some c → c.token.kind.isScopeBracket = false) : m.Ready where
  running := works.running
  unselected := works.unselected noBrace
  distinct := by
    rw [Line.refs, works.holds]
    exact works.distinct

/-!
## Going to a line
-/

@[simp] theorem outcome_halt : Action.halt.outcome m =
    .ok ((), { m with work := {}, finished := true }) := rfl

theorem outcome_goToLine {line : Line} (found : m.program.lines[i]? = some line) :
    (Action.goToLine i).outcome m = .ok ((), { m with work := { index := i, line } }) := by
  unfold Action.goToLine
  rw [Action.outcome_bind]
  simp only [Action.outcome_get, Except.bind_ok, found, Action.outcome_modify]

theorem outcome_goToLine_past (past : m.program.lines[i]? = none) :
    (Action.goToLine i).outcome m = .ok ((), { m with work := {}, finished := true }) := by
  unfold Action.goToLine
  rw [Action.outcome_bind]
  simp only [Action.outcome_get, Except.bind_ok, past, outcome_halt]

def workFrom (i : Nat) (line : Line) (c : Cell) (after : List Cell) : Work where
  index := i
  line := line.withCells (c :: after)
  selected := if c.token.kind = .openBrace then some c.ref else none

theorem outcome_goTo {line : Line} (found : m.program.lines[i]? = some line) (loaded : line.Loaded)
    (before : List Cell) {c : Cell} {after : List Cell}
    (split : line.cells = before ++ c :: after) :
    (Action.goTo (some { line := i, token := c.ref })).outcome m =
      .ok ((), { m with work := workFrom i line c after }) := by
  have dropped : line.dropBefore c.ref = .ok (line.withCells (c :: after)) := by
    simp [Line.dropBefore, Line.cellsFrom, loaded.focus before split]
  have fewer : ((c :: after).map Cell.ref).Sublist line.refs := by
    rw [Line.refs, split]
    exact (List.sublist_append_right before (c :: after)).map _
  have token : (line.withCells (c :: after)).get c.ref = .ok c.token := by
    rw [Line.get, Line.focus_eq (l := line.withCells (c :: after)) (fewer.nodup loaded.distinct)
      [] rfl]
    rfl
  simp only [Action.goTo, Action.outcome_bind, Action.outcome_get, Except.bind_ok,
    Action.outcome_ofFault, Program.lineAt_eq found, Except.bind_eq_bind, dropped, orFault,
    Except.mapError_ok_eq, Except.map_ok_eq, token, Action.outcome_emit, Action.outcome_modify]
  rfl

theorem worksOn_goTo {line : Line} (running : m.finished = false) (loaded : line.Loaded)
    (before : List Cell) {c : Cell} {after : List Cell}
    (split : line.cells = before ++ c :: after) :
    ({ m with work := workFrom i line c after } : Machine).WorksOn i (c :: after) .statement where
  running := running
  index := rfl
  holds := rfl
  aim := rfl
  distinct := by
    refine loaded.distinct.sublist ?_
    rw [Line.refs, split]
    exact (List.sublist_append_right before (c :: after)).map _
  selected := by
    intro r h
    simp only [workFrom] at h
    split at h
    · rename_i kind
      cases h
      exact ⟨c, after, rfl, rfl, kind⟩
    · cases h

/-!
## Steps on a line
-/

theorem next_first {c : Cell} {cs : List Cell} (works : m.WorksOn i (c :: cs) purpose)
    (first : c.token.kind.isScopeBracket = true ∨ cs = []) :
    m.next = ((Action.act ⟨[], c, cs⟩).outcome
      { m with work := { m.work with selected := none } }).map Prod.snd := by
  have highest : m.work.line.highest? = some c.ref := by
    rw [Line.highest?, works.holds]
    rcases first with h | rfl
    · simp [h]
    · simp
  have picked : Action.choice? m.work = some c.ref := by
    cases h : m.work.selected with
    | none => simp [Action.choice?, h, highest]
    | some r =>
        obtain ⟨d, ds, same, rfl, kind⟩ := works.selected r h
        cases same
        rw [Action.choice?, h, highest]
        simp [Option.filter]
        split <;> rfl
  exact next_picked (f := ⟨[], c, cs⟩) works.running
    (by rw [Line.refs, works.holds]; exact works.distinct) works.holds.symm picked

theorem next_control {c : Cell} {cs : List Cell} (works : m.WorksOn i (c :: cs) purpose)
    (fresh : ∀ d ∈ c :: cs, d.Fresh) (high : c.token.kind.basePriority = Priority.control)
    (noBrace : c.token.kind.isScopeBracket = false) :
    m.next = ((Action.act ⟨[], c, cs⟩).outcome m).map Prod.snd := by
  have head : ∀ d, (c :: cs).head? = some d → d.token.kind.isScopeBracket = false := by
    intro d hd
    cases hd
    exact noBrace
  refine next_chosen (works.ready head) works.holds.symm (by rw [works.holds]; exact head)
    ⟨by simp, ?_⟩
  intro d hd
  rw [(fresh d (List.mem_cons_of_mem _ hd)).1, (fresh c (by simp)).1, high]
  exact d.token.kind.basePriority_le_control

theorem next_empty (running : m.finished = false) (empty : m.work.line.cells = []) :
    m.next = ((Action.conclude none).outcome m).map Prod.snd := by
  have nothing : m.work.line.isEmpty = true := by simp [Line.isEmpty, empty]
  unfold next Action.step
  rw [Action.outcome_bind]
  simp [running, nothing]

theorem outcome_conclude_statement {result : Option Token} (purpose : m.work.purpose = .statement)
    (plain : Action.signalOf? result = none) :
    (Action.conclude result).outcome m = (Action.goToLine (m.work.index + 1)).outcome m := by
  unfold Action.conclude
  rw [Action.outcome_bind]
  simp [purpose, plain]

theorem remove_alone {f : Focus} (whole : f.cells = m.work.line.cells) (before : f.before = [])
    (after : f.after = []) :
    Action.remove f.cell.ref m = { machine := m.onLine [] 0, events := [], result := .ok () } := by
  have settled := Action.settles_drop whole
  rw [before, after] at settled
  refine settled.apply ?_
  rw [Line.Distinct, Line.refs, ← whole, Focus.cells, before, after]
  simp

theorem outcome_remove_alone {f : Focus} (whole : f.cells = m.work.line.cells)
    (before : f.before = []) (after : f.after = []) :
    (Action.remove f.cell.ref).outcome m = .ok ((), m.onLine [] 0) := by
  rw [Action.outcome, remove_alone whole before after]
  rfl

theorem act_ok {f : Focus} (whole : f.cells = m.work.line.cells)
    (ran : (Action.act f).outcome m = .ok ((), m')) :
    (f.before = [] ∧ f.after = [] ∧ f.cell.token.kind.isInert = true ∧
      (Action.conclude (some f.cell.token)).outcome
        { m with work := { m.work with line := m.work.line.withCells [] } } = .ok ((), m')) ∨
      f.cell.token.kind.isInert = false ∧ (Action.perform f).outcome m = .ok ((), m') := by
  unfold Action.act at ran
  cases inert : f.cell.token.kind.isInert with
  | true =>
      simp only [inert, if_true, Focus.next?, Focus.prev?] at ran
      cases after : f.after with
      | cons d ds =>
          rw [after] at ran
          cases ran
      | nil =>
          cases before : f.before with
          | cons d ds =>
              rw [after, before] at ran
              cases ran
          | nil =>
              rw [after, before] at ran
              exact .inl ⟨rfl, rfl, rfl,
                (Action.outcome_bind_of_ok
                  (outcome_remove_alone whole before after)).symm.trans ran⟩
  | false =>
      simp only [inert, Bool.false_eq_true, if_false] at ran
      exact .inr ⟨rfl, ran⟩

end LineScript.Machine
