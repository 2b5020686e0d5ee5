import LineScript.Proofs.Effects.Steps

/-!
# Reducing a line ends

Not every step makes its line shorter.  A parenthesis that is reached boosts what it encloses, a
negation that has to wait for a power lowers its own priority, a template becomes a sum, and a
`break` turns the line into a signal.  What every step decreases is the load of the line: four
numbers, of which the first that changes becomes smaller.  They count

* the templates that are still to be expanded,
* the cells, those that can act twice,
* the parentheses that have not been reached,
* the negations that would act before a power that they have to wait for.

So there is no endless run of steps that all stay in one line, whatever its tokens and priorities
are (`Machine.reductions_end`).
-/

namespace LineScript

def TokenKind.isTemplate : TokenKind → Bool
  | .template _ => true
  | _ => false

theorem TokenKind.isTemplate_of_isInert {k : TokenKind} (inert : k.isInert = true) :
    k.isTemplate = false := by
  cases k with
  | template _ => cases inert
  | _ => rfl

/-!
## The load of a line
-/

namespace Line

def templates (cells : List Cell) : Nat :=
  cells.countP fun c => c.token.kind.isTemplate

/-- The number of cells, with those that can act counted twice. -/
def bulk (cells : List Cell) : Nat :=
  cells.length + cells.countP fun c => !c.token.kind.isInert

def unreached (cells : List Cell) : Nat :=
  cells.countP fun c => !c.token.expanded

/-- The cell is a negation that has to wait for a power after it. -/
def isHasty (c : Cell) (after : List Cell) : Bool :=
  c.token.kind = .operator .negate && (Action.waitsBelow? ⟨[], c, after⟩ .negate).isSome

def hasty : List Cell → Nat
  | [] => 0
  | c :: cells => hasty cells + if isHasty c cells then 1 else 0

def load (cells : List Cell) : Nat × Nat × Nat × Nat :=
  (templates cells, bulk cells, unreached cells, hasty cells)

def Lighter (new old : List Cell) : Prop :=
  Prod.Lex (· < ·) (Prod.Lex (· < ·) (Prod.Lex (· < ·) (· < ·))) (load new) (load old)

theorem lighter_wellFounded : WellFounded Lighter :=
  InvImage.wf load
    (Prod.lex Nat.lt_wfRel (Prod.lex Nat.lt_wfRel (Prod.lex Nat.lt_wfRel Nat.lt_wfRel))).wf

variable {new old pre used mid post : List Cell} {c d : Cell}

@[simp] theorem templates_append : templates (pre ++ post) = templates pre + templates post :=
  List.countP_append

@[simp] theorem bulk_append : bulk (pre ++ post) = bulk pre + bulk post := by
  simp only [bulk, List.length_append, List.countP_append]
  omega

theorem lighter_of_templates (fewer : templates new < templates old) : Lighter new old :=
  .left _ _ fewer

theorem lighter_of_bulk (templates : templates new ≤ templates old)
    (smaller : bulk new < bulk old) :
    Lighter new old := by
  rcases Nat.lt_or_eq_of_le templates with fewer | same
  · exact lighter_of_templates fewer
  · rw [Lighter, load, load, same]
    exact .right _ (.left _ _ smaller)

theorem load_of_kinds
    (kinds : new.map (fun c => c.token.kind) = old.map fun c => c.token.kind) :
    templates new = templates old ∧ bulk new = bulk old := by
  have count (p : TokenKind → Bool) :
      new.countP (fun c => p c.token.kind) = old.countP fun c => p c.token.kind := by
    have same := congrArg (List.countP p) kinds
    rwa [List.countP_map, List.countP_map] at same
  have length := congrArg List.length kinds
  rw [List.length_map, List.length_map] at length
  exact ⟨count _, by rw [bulk, bulk, length, count fun k => !k.isInert]⟩

theorem lighter_of_unreached
    (kinds : new.map (fun c => c.token.kind) = old.map fun c => c.token.kind)
    (fewer : unreached new < unreached old) : Lighter new old := by
  obtain ⟨templates, bulk⟩ := load_of_kinds kinds
  rw [Lighter, load, load, templates, bulk]
  exact .right _ (.right _ (.left _ _ fewer))

theorem lighter_of_hasty
    (kinds : new.map (fun c => c.token.kind) = old.map fun c => c.token.kind)
    (same : unreached new = unreached old) (fewer : hasty new < hasty old) : Lighter new old := by
  obtain ⟨templates, bulk⟩ := load_of_kinds kinds
  rw [Lighter, load, load, templates, bulk, same]
  exact .right _ (.right _ (.right _ fewer))

/-!
Cells that give way to others.
-/

theorem lighter_splice (templates : templates mid ≤ templates used)
    (smaller : bulk mid < bulk used) :
    Lighter (pre ++ mid ++ post) (pre ++ used ++ post) := by
  apply lighter_of_bulk
  · simp only [templates_append]
    omega
  · simp only [bulk_append]
    omega

theorem two_le_bulk (member : d ∈ used) (active : d.token.kind.isInert = false) :
    2 ≤ bulk used := by
  have some_ : 0 < used.length := List.length_pos_of_mem member
  have acting : 0 < used.countP fun c => !c.token.kind.isInert :=
    List.countP_pos_iff.2 ⟨d, member, by rw [active]; rfl⟩
  rw [bulk]
  omega

theorem lighter_answer (inert : c.token.kind.isInert = true) (member : d ∈ used)
    (active : d.token.kind.isInert = false) : Lighter (pre ++ c :: post) (pre ++ used ++ post) := by
  have alone : bulk [c] = 1 := by simp [bulk, inert]
  have none : templates [c] = 0 := by simp [templates, TokenKind.isTemplate_of_isInert inert]
  have many := two_le_bulk member active
  rw [← List.singleton_append, ← List.append_assoc]
  apply lighter_splice
  · omega
  · omega

theorem lighter_drop (active : c.token.kind.isInert = false) :
    Lighter (pre ++ post) (pre ++ c :: post) := by
  have many := two_le_bulk (List.mem_singleton.2 rfl : c ∈ [c]) active
  have splice : Lighter (pre ++ [] ++ post) (pre ++ [c] ++ post) :=
    lighter_splice (Nat.zero_le _) (Nat.lt_of_lt_of_le Nat.zero_lt_two many)
  simpa using splice

theorem lighter_nil (member : d ∈ old) (active : d.token.kind.isInert = false) :
    Lighter [] old :=
  lighter_of_bulk (Nat.zero_le _) (Nat.lt_of_lt_of_le Nat.zero_lt_two (two_le_bulk member active))

/-!
A negation that waits.
-/

theorem isHasty_congr (kind : c.token.kind = d.token.kind)
    (notPower : d.token.kind ≠ .operator .pow) (b : Cell) (pre post : List Cell) :
    isHasty b (pre ++ c :: post) = isHasty b (pre ++ d :: post) := by
  have power : Action.powerAfter? ⟨[], b, pre ++ c :: post⟩ =
      Action.powerAfter? ⟨[], b, pre ++ d :: post⟩ := by
    match pre with
    | [] => cases post <;> rfl
    | [_] => simp [Action.powerAfter?, kind, notPower]
    | _ :: _ :: _ => rfl
  simp only [isHasty, Action.waitsBelow?, power]

theorem hasty_lt (kind : c.token.kind = d.token.kind) (notPower : d.token.kind ≠ .operator .pow)
    (calm : isHasty c post = false) (high : isHasty d post = true) :
    hasty (pre ++ c :: post) < hasty (pre ++ d :: post) := by
  induction pre with
  | nil =>
      simp only [List.nil_append, hasty, calm, high, Bool.false_eq_true, if_false, if_true]
      omega
  | cons b pre ih =>
      simp only [List.cons_append, hasty, isHasty_congr kind notPower]
      omega

end Line

/-!
## Steps that stay in their line
-/

namespace Machine

def Passes (m : Machine) : Prop :=
  ∃ f, m.acting? = some f ∧ Action.Passes m f

/-- A step of a running machine that neither completes its line nor passes control on. -/
structure Reduces (m m' : Machine) : Prop where
  running : m.finished = false
  incomplete : ¬ m.Completes
  stays : ¬ m.Passes
  step : m.next = .ok m'

/-- Control is where it was. -/
structure SameControl (m m' : Machine) : Prop where
  program : m'.program = m.program
  functions : m'.functions = m.functions
  calls : m'.calls = m.calls
  gotos : m'.gotos = m.gotos
  loops : m'.loops = m.loops
  index : m'.work.index = m.work.index
  purpose : m'.work.purpose = m.work.purpose
  finished : m'.finished = m.finished

/-- Where control has been passed to: the end of the run, a new copy of a line of the program or of
a part of one, or the line of a caller. -/
inductive Passed (m m' : Machine) : Prop where
  | over (finished : m'.finished = true)
  | copy (line : Line) (found : m'.program.lines[m'.work.index]? = some line)
      (part : m'.work.line.cells <:+: line.cells)
  | caller (c : Call) (calls : m.calls = c :: m'.calls)

theorem SameControl.edit (m : Machine) (symbols : Symbols) (blocks : List Block) (sink : Sink)
    (nextId : Nat) (line : Line) (selected : Option Ref) :
    m.SameControl
      { m with symbols, blocks, sink, nextId, work := { m.work with line, selected } } :=
  ⟨rfl, rfl, rfl, rfl, rfl, rfl, rfl, rfl⟩

theorem SameControl.refl (m : Machine) : m.SameControl m :=
  .edit ..

theorem SameControl.trans {m m₁ m' : Machine} (first : m.SameControl m₁)
    (second : m₁.SameControl m') :
    m.SameControl m' where
  program := second.program.trans first.program
  functions := second.functions.trans first.functions
  calls := second.calls.trans first.calls
  gotos := second.gotos.trans first.gotos
  loops := second.loops.trans first.loops
  index := second.index.trans first.index
  purpose := second.purpose.trans first.purpose
  finished := second.finished.trans first.finished

structure Lightens (m : Machine) (cells : List Cell) (m' : Machine) : Prop where
  control : m.SameControl m'
  lighter : Line.Lighter m'.work.line.cells cells

end Machine

namespace Action

variable {m : Machine} {f : Focus}

theorem waits_lighter {op : Operator} {priority : Int} (kind : f.cell.token.kind = .operator op)
    (waits : waitsBelow? f op = some priority) :
    Line.Lighter
      ({ f with cell := { f.cell with token := { f.cell.token with priority } } } : Focus).cells
      f.cells := by
  unfold waitsBelow? at waits
  split at waits
  · rename_i negation
    subst negation
    obtain ⟨power, found, low⟩ := Option.bind_eq_some_iff.1 waits
    split at low
    · rename_i le
      obtain rfl : power - 1 = priority := Option.some.inj low
      have ahead (c : Cell) : powerAfter? ⟨[], c, f.after⟩ = some power := found
      apply Line.lighter_of_hasty
      · simp [Focus.cells]
      · simp [Focus.cells, Line.unreached, List.countP_cons]
      · refine Line.hasty_lt rfl (by rw [kind]; decide) ?_ ?_
        · have lowered : ¬ power ≤ power - 1 := by omega
          simp only [Line.isHasty, waitsBelow?, ahead, if_true, Option.bind_some, if_neg lowered,
            Option.isSome_none, Bool.and_false]
        · simp [Line.isHasty, waitsBelow?, ahead, le, kind]
    · cases low
  · cases waits

theorem reached_lighter {b : Bracket} {inner rest : List Cell} {close : Cell}
    (first : f.cell.token.expanded = false)
    (split : Line.splitClose? b 0 f.after = some (inner, close, rest)) :
    Line.Lighter (f.before.reverse ++
      { f.cell with token := { f.cell.token with expanded := true } } ::
      (Line.boostUntil close.ref Priority.boost inner ++ close :: rest)) f.cells := by
  have cells : f.cells = f.before.reverse ++ (f.cell :: inner ++ [close]) ++ rest := by
    rw [Focus.cells, ← Line.splitClose?_append split]
    simp
  rw [cells]
  apply Line.lighter_of_unreached
  · have kinds : (Line.boostUntil close.ref Priority.boost inner).map (fun c => c.token.kind) =
        inner.map fun c => c.token.kind := Line.map_boostUntil (fun _ => rfl) close.ref inner
    simp [kinds]
  · have flags : (Line.boostUntil close.ref Priority.boost inner).countP
      (fun c => !c.token.expanded) =
        inner.countP fun c => !c.token.expanded :=
      Line.countP_boostUntil (fun _ => rfl) close.ref inner
    simp [Line.unreached, flags, first]

theorem unwrapped_lighter {b : Bracket} {c close : Cell} {rest : List Cell}
    (active : f.cell.token.kind.isInert = false)
    (split : Line.splitClose? b 0 f.after = some ([c], close, rest)) :
    Line.Lighter (f.before.reverse ++ c :: rest) f.cells := by
  have cells : f.cells = f.before.reverse ++ (f.cell :: [c] ++ [close]) ++ rest := by
    rw [Focus.cells, ← Line.splitClose?_append split]
    simp
  have splice : Line.Lighter (f.before.reverse ++ [c] ++ rest)
      (f.before.reverse ++ (f.cell :: [c] ++ [close]) ++ rest) := by
    apply Line.lighter_splice
    · simp only [Line.templates, List.cons_append, List.nil_append, List.countP_cons]
      omega
    · simp only [Line.bulk, List.countP_cons, List.cons_append, List.nil_append,
        List.length_cons, List.length_nil, List.countP_nil, active]
      omega
  rw [cells]
  rwa [List.append_assoc] at splice

theorem templates_chainCells (line : Nat) (priority : Int) (r : Ref) (id : Nat)
    (segments : List Template.Segment) :
    Line.templates (chainCells line priority r id (Template.expansion segments)) = 0 := by
  rw [Line.templates, List.countP_eq_zero]
  intro c member
  have among : c.token.kind ∈ Template.expansion segments := by
    rw [← map_kind_chainCells line priority r id (Template.expansion segments)]
    exact List.mem_map_of_mem member
  rcases mem_expansion among with operand | add
  · cases kind : c.token.kind with
    | template _ =>
        rw [kind] at operand
        cases operand
    | _ => simp [TokenKind.isTemplate]
  · simp [add, TokenKind.isTemplate]

end Action

namespace Machine

variable {m m₁ m' : Machine} {f : Focus}

/-- Every edit of a line makes it lighter. -/
theorem Edits.lightens (edits : m.Edits f m') (active : f.cell.token.kind.isInert = false) :
    m.Lightens f.cells m' := by
  have member : f.cell ∈ f.cells := by simp [Focus.cells]
  have dropped : Line.Lighter (f.before.reverse ++ f.after) f.cells := Line.lighter_drop active
  cases edits with
  | answer used cells member _ _ =>
      refine ⟨.edit .., ?_⟩
      rw [cells]
      exact Line.lighter_answer rfl member active
  | wait kind below => exact ⟨.edit .., Action.waits_lighter kind below⟩
  | declare _ _ => exact ⟨.edit .., dropped⟩
  | expand kind _ =>
      refine ⟨.edit .., Line.lighter_of_templates ?_⟩
      have own : Line.templates [f.cell] = 1 := by simp [Line.templates, kind, TokenKind.isTemplate]
      have cells : f.cells = f.before.reverse ++ [f.cell] ++ f.after := by simp [Focus.cells]
      simp only [cells, Line.templates_append, Action.templates_chainCells, own]
      omega
  | clear _ => exact ⟨.edit .., Line.lighter_nil member active⟩
  | signal signal =>
      refine ⟨.edit .., ?_⟩
      have lighter : Line.Lighter
          ([] ++ [⟨m.work.line.nextRef, Token.new (.signal signal) m.nextId f.cell.token.line⟩])
          ([] ++ f.cells ++ []) := Line.lighter_answer rfl member active
      rwa [List.append_nil] at lighter
  | reach _ first split => exact ⟨.edit .., Action.reached_lighter first split⟩
  | unwrap _ split => exact ⟨.edit .., Action.unwrapped_lighter active split⟩
  | openBlock _ => exact ⟨.edit .., dropped⟩
  | closeBlock _ => exact ⟨.edit .., dropped⟩

/-!
## Where control goes
-/

theorem Fetches.passed (fetches : m₁.Fetches m') : m.Passed m' := by
  cases fetches with
  | copy found cells _ _ _ => exact .copy _ found cells
  | halt => exact .over rfl

theorem Jumps.passed (jumps : m₁.Jumps m') : m.Passed m' := by
  obtain ⟨-, fetches⟩ := jumps
  exact fetches.passed

theorem HandsBack.passed {value : Value} (back : m₁.HandsBack value m')
    (same : m₁.calls = m.calls) :
    m.Passed m' := by
  obtain ⟨own, -⟩ := back
  exact .caller _ (same.symm.trans own)

theorem Transfers.passed (transfers : m₁.Transfers f m') (same : m₁.calls = m.calls) :
    m.Passed m' := by
  cases transfers with
  | jump jumps => exact jumps.passed
  | loop _ _ jumps => exact jumps.passed
  | iterate jumps => exact jumps.passed
  | define _ _ _ fetches => exact fetches.passed
  | call _ _ _ _ _ _ _ _ fetches => exact fetches.passed
  | giveBack _ back => exact back.passed same
  | finish back => exact back.passed same

/-!
## Steps
-/

theorem Reduces.lightens (reduces : m.Reduces m') : m.Lightens m.work.line.cells m' := by
  cases does_of_next reduces.step with
  | rest finished => simp [reduces.running] at finished
  | conclude _ completes _ => exact absurd completes reduces.incomplete
  | edit acts active _ edits =>
      obtain ⟨control, lighter⟩ := edits.lightens active
      rw [whole_of_acting acts] at lighter
      have unselects : m.SameControl { m with work := { m.work with selected := none } } :=
        .edit ..
      exact ⟨unselects.trans control, lighter⟩
  | transfer acts passes _ => exact absurd ⟨_, acts, passes⟩ reduces.stays

theorem passed_of_next (running : m.finished = false) (incomplete : ¬ m.Completes)
    (passes : m.Passes) (step : m.next = .ok m') : m.Passed m' := by
  cases does_of_next step with
  | rest finished => simp [running] at finished
  | conclude _ completes _ => exact absurd completes incomplete
  | edit acts _ stays _ =>
      obtain ⟨g, acts', passes⟩ := passes
      obtain rfl := Option.some.inj (acts.symm.trans acts')
      exact absurd passes stays
  | transfer _ _ transfers => exact transfers.passed rfl

/-!
## Every line comes to an end
-/

theorem reduces_wellFounded : WellFounded fun m' m : Machine => m.Reduces m' :=
  Subrelation.wf (fun reduces => reduces.lightens.lighter)
    (InvImage.wf (fun m : Machine => m.work.line.cells) Line.lighter_wellFounded)

/-- The steps before the `n`-th, all of them reductions, lead to a machine. -/
inductive ReducesTo : Machine → Nat → Machine → Prop where
  | refl (m : Machine) : ReducesTo m 0 m
  | step {m m₁ m' : Machine} {n : Nat} (first : m.Reduces m₁) (rest : ReducesTo m₁ n m') :
      ReducesTo m (n + 1) m'

theorem ReducesTo.after {n : Nat} (run : m.ReducesTo n m') : m.after n = .ok m' := by
  induction run with
  | refl m => rfl
  | step first rest ih => rw [after_succ, first.step, Except.bind_ok, ih]

theorem ReducesTo.control {n : Nat} (run : m.ReducesTo n m') : m.SameControl m' := by
  induction run with
  | refl m => exact .refl m
  | step first rest ih => exact first.lightens.control.trans ih

/-- The machine does not reduce its line any more. -/
inductive Irreducible (m : Machine) : Prop where
  | over (finished : m.finished = true)
  | completes (done : m.Completes)
  | passes (token : m.Passes) (m' : Machine) (step : m.next = .ok m') (passed : m.Passed m')
  | fails (stop : Stop) (failed : m.next = .error stop)

theorem irreducible_or_reduces (m : Machine) : m.Irreducible ∨ ∃ m', m.Reduces m' := by
  cases running : m.finished with
  | true => exact .inl (.over running)
  | false =>
      by_cases done : m.Completes
      · exact .inl (.completes done)
      · cases step : m.next with
        | error stop => exact .inl (.fails stop step)
        | ok m' =>
            by_cases passes : m.Passes
            · exact .inl (.passes passes m' step (passed_of_next running done passes step))
            · exact .inr ⟨m', running, done, passes, step⟩

/-- From every machine there is no endless run of steps that all reduce its line: after some of
them, with control where it was, the run is over, the line completes, control is passed on or a step
fails. -/
theorem reductions_end (m : Machine) :
    (¬ ∃ run : Nat → Machine, run 0 = m ∧ ∀ n, (run n).Reduces (run (n + 1))) ∧
      ∃ n m', m.ReducesTo n m' ∧ m.after n = .ok m' ∧ m.SameControl m' ∧ m'.Irreducible := by
  induction m using reduces_wellFounded.induction with
  | _ m ih =>
      constructor
      · rintro ⟨run, rfl, reduces⟩
        exact (ih (run 1) (reduces 0)).1 ⟨fun n => run (n + 1), rfl, fun n => reduces (n + 1)⟩
      · rcases m.irreducible_or_reduces with ends | ⟨m₁, reduces⟩
        · exact ⟨0, m, .refl m, rfl, .refl m, ends⟩
        · obtain ⟨n, m', rest, -, -, ends⟩ := (ih m₁ reduces).2
          have run : m.ReducesTo (n + 1) m' := .step reduces rest
          exact ⟨n + 1, m', run, run.after, run.control, ends⟩

end Machine

end LineScript
