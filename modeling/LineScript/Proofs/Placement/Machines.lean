import LineScript.Proofs.Placement.Programs

/-!
# Machines that run in step

`Placement.Placed` relates two machines on programs that differ in the placement of braces.  They
have the same variables and the same output, their frames are those of the same loops, calls and
functions, and they work on the same line, or both on a brace that is on a line of its own in the
second program.
-/

namespace LineScript

namespace Placement

variable {p p' : Program}

/-!
## The relation
-/

/-- What stands at the end of a line in the first program only.  The brace of a header is there as
long as the statement is reduced. -/
inductive Trails (place : Placement p.lines p'.lines) (t : Nat) (purpose : Purpose) :
    List Cell → Prop where
  | none (whole : place.gap t = none ∨ purpose ≠ .statement) : Trails place t purpose []
  | brace {c : Cell} (gap : place.gap t = some c.ref) (kind : c.token.kind = .openBrace) :
      Trails place t purpose [c]

structure OnLine (place : Placement p.lines p'.lines) (t : Nat) (tail : List Cell) (w w' : Work) :
    Prop where
  index : w.index = t
  index' : w'.index = place.index t
  purpose : w'.purpose = w.purpose
  trails : place.Trails t w.purpose tail
  above : ∀ n, place.gap t = some n → n < w.line.nextRef
  nextRef : w'.line.nextRef = renumber (place.gap t) w.line.nextRef

structure Reducing (place : Placement p.lines p'.lines) (t : Nat) (front tail : List Cell)
    (w w' : Work) : Prop extends place.OnLine t tail w w' where
  cells : w.line.cells = front ++ tail
  twins : Twins (place.gap t) front w'.line.cells
  filled : tail ≠ [] → front ≠ []

inductive Works (place : Placement p.lines p'.lines) (w w' : Work) : Prop where
  | line {t : Nat} {front tail : List Cell} (reducing : place.Reducing t front tail w w')
  /-- A brace that is alone on its line in the second program only. -/
  | brace {t : Nat} {r : Ref} (gap : place.gap t = some r) (index : w.index = t)
      (index' : w'.index = place.index t + 1) (aim : w.purpose = .statement)
      (aim' : w'.purpose = .statement)
      (cells : w.line.cells = [] ∧ w'.line.cells = [] ∨ ∃ c c', w.line.cells = [c] ∧
        w'.line.cells = [c'] ∧ c.token.kind = .openBrace ∧ c'.token.kind = .openBrace)

structure SameFunction (place : Placement p.lines p'.lines) (f f' : Function) : Prop where
  name : f'.name = f.name
  parameters : f'.parameters = f.parameters
  returns : f'.returns = f.returns
  body : f'.body = place.extent f.body
  block : p.IsBlock f.body

structure SameLoop (place : Placement p.lines p'.lines) (l l' : Loop) : Prop where
  header : l'.header = place.index l.header
  condition : l'.condition = l.condition
  step : l'.step = l.step
  body : l'.body = place.extent l.body
  scopes : l'.scopes = l.scopes
  calls : l'.calls = l.calls
  block : p.IsBlock l.body
  /-- No part of the header ends with the brace. -/
  clear : ∀ part, l.condition = some part ∨ l.step = some part →
    place.gap l.header ≠ some part.1 ∧ place.gap l.header ≠ some part.2

structure SameCall (place : Placement p.lines p'.lines) (c c' : Call) : Prop where
  function : place.SameFunction c.function c'.function
  scopes : c'.scopes = c.scopes
  loops : c'.loops = c.loops
  /-- The name and the closing parenthesis are those of the same call in the saved lines. -/
  site : ∃ t before name opening args close after tail,
    place.Reducing t (before ++ name :: opening :: (args ++ close :: after)) tail c.saved c'.saved ∧
      c.nameRef = name.ref ∧ c.closeRef = close.ref ∧
      c'.nameRef = renumber (place.gap t) name.ref ∧ c'.closeRef = renumber (place.gap t) close.ref

structure Frames (place : Placement p.lines p'.lines) (m m' : Machine) : Prop where
  program : m.program = p
  program' : m'.program = p'
  symbols : m'.symbols = m.symbols
  functions : List.Forall₂ place.SameFunction m.functions.all m'.functions.all
  calls : List.Forall₂ place.SameCall m.calls m'.calls
  loops : List.Forall₂ place.SameLoop m.loops m'.loops
  sink : m'.sink = m.sink
  properties : m'.properties = m.properties
  finished : m'.finished = m.finished

structure Placed (place : Placement p.lines p'.lines) (m m' : Machine) : Prop
    extends place.Frames m m' where
  work : m.finished = false → place.Works m.work m'.work

abbrev Keeps {α β : Type} (place : Placement p.lines p'.lines) (x : Action α) (m : Machine)
    (y : Action β) (m' : Machine) : Prop :=
  Action.Agree (fun _ _ => place.Placed) x m y m'

variable {place : Placement p.lines p'.lines} {m m' : Machine} {t : Nat}

theorem Trails.tail {purpose : Purpose} {tail : List Cell} (trails : place.Trails t purpose tail) :
    Tail tail := by
  cases trails with
  | none => exact ⟨nofun⟩
  | brace _ kind => exact ⟨fun d hd => by rw [List.mem_singleton.1 hd, kind]⟩

theorem trails_of_rest {tail : List Cell} (rest : Rest p'.lines (place.index t) (place.gap t) tail)
    (purpose : Purpose) : place.Trails t purpose tail := by
  generalize gap : place.gap t = g at rest
  cases rest with
  | none => exact .none (.inl gap)
  | brace kind => exact .brace gap kind

namespace Frames

theorem withWork (frames : place.Frames m m') (w w' : Work) :
    place.Frames { m with work := w } { m' with work := w' } :=
  { frames with }

theorem innermost_loop (frames : place.Frames m m') :
    (m.loops = [] ∧ m'.loops = []) ∨ ∃ l ls l' ls', m.loops = l :: ls ∧ m'.loops = l' :: ls' ∧
      place.SameLoop l l' ∧ List.Forall₂ place.SameLoop ls ls' := by
  have loops := frames.loops
  generalize m.loops = all at loops
  generalize m'.loops = all' at loops
  cases loops with
  | nil => exact .inl ⟨rfl, rfl⟩
  | cons same rest => exact .inr ⟨_, _, _, _, rfl, rfl, same, rest⟩

theorem innermost_call (frames : place.Frames m m') :
    (m.calls = [] ∧ m'.calls = []) ∨ ∃ c cs c' cs', m.calls = c :: cs ∧ m'.calls = c' :: cs' ∧
      place.SameCall c c' ∧ List.Forall₂ place.SameCall cs cs' := by
  have calls := frames.calls
  generalize m.calls = all at calls
  generalize m'.calls = all' at calls
  cases calls with
  | nil => exact .inl ⟨rfl, rfl⟩
  | cons same rest => exact .inr ⟨_, _, _, _, rfl, rfl, same, rest⟩

theorem halt (frames : place.Frames m m') : place.Keeps Action.halt m Action.halt m' :=
  .ok Machine.outcome_halt Machine.outcome_halt
    { frames with
      finished := rfl
      work := nofun }

/-!
## Going to a line
-/

variable (frames : place.Frames m m')

include frames

theorem goToLine (t : Nat) :
    place.Keeps (Action.goToLine t) m (Action.goToLine (place.index t)) m' := by
  cases found : p.lines[t]? with
  | none =>
      have found' := place.past found
      refine .ok (Machine.outcome_goToLine_past (by rw [frames.program]; exact found))
        (Machine.outcome_goToLine_past (by rw [frames.program']; exact found')) ?_
      exact { frames with
        finished := rfl
        work := nofun }
  | some line =>
      obtain ⟨line', front, tail, laid⟩ := place.laid found
      refine .ok (Machine.outcome_goToLine (by rw [frames.program]; exact found))
        (Machine.outcome_goToLine (by rw [frames.program']; exact laid.found)) ?_
      exact { frames.withWork _ _ with
        work := fun _ => .line
          { index := rfl
            index' := rfl
            purpose := rfl
            trails := trails_of_rest laid.rest _
            above := laid.above
            nextRef := laid.nextRef
            cells := laid.cells
            twins := laid.twins
            filled := fun _ => laid.filled } }

theorem goTo (loaded : p.Loaded) (loaded' : p'.Loaded) {target : Option Position}
    (linked : ∀ b, target = some b → p.Linked b) :
    place.Keeps (Action.goTo target) m (Action.goTo (target.map place.position)) m' := by
  cases target with
  | none => exact frames.halt
  | some b =>
      obtain ⟨line, before, c, after, found, cells, ref⟩ := (linked b rfl).split
      obtain ⟨t, r⟩ := b
      obtain rfl : c.ref = r := ref
      have ran := Machine.outcome_goTo (by rw [frames.program]; exact found)
        (loaded.line found) before
        cells
      rw [Option.map_some]
      cases place.seen found cells with
      | @brace own c' gap last next alone ref kind twin =>
          have ran' := Machine.outcome_goTo
            (by rw [frames.program']; exact next) (loaded'.line next) []
            alone
          rw [ref, ← place.position_brace gap] at ran'
          refine .ok ran ran' ?_
          exact { frames.withWork _ _ with
            work := fun _ => .brace gap rfl rfl rfl rfl
              (.inr ⟨c, c', by rw [last]; rfl, rfl, kind, twin.kind.trans kind⟩) }
      | header other found' cells' _ twin ref split onRight _ above nextRef rest =>
          have ran' := Machine.outcome_goTo
            (by rw [frames.program']; exact found') (loaded'.line found')
            _ cells'
          rw [ref, ← place.position_header other] at ran'
          refine .ok ran ran' ?_
          exact { frames.withWork _ _ with
            work := fun _ => .line
              { index := rfl
                index' := rfl
                purpose := rfl
                trails := trails_of_rest rest _
                above := above
                nextRef := nextRef
                cells := by rw [split]; rfl
                twins := .cons twin onRight
                filled := fun _ => by simp } }

end Frames

end Placement

end LineScript
