import LineScript.Proofs.Placement.Calls

/-!
# Loops on both machines

The parts of a loop header are reduced on twin lines, and the body is entered and left at the same
tokens.
-/

namespace LineScript

namespace Placement

variable {p p' : Program} {place : Placement p.lines p'.lines} {m m' n n' : Machine} {t : Nat}
  {tail : List Cell} {f f' : Focus}

namespace Frames

section

variable (frames : place.Frames m m') (balanced : p.Balanced) (loaded' : p'.Loaded)

include frames

theorem workOnHeader (header : Nat) {part : HeaderPart} (first : place.gap header ≠ some part.1)
    (last : place.gap header ≠ some part.2) {purpose : Purpose} (other : purpose ≠ .statement) :
    place.Keeps (Action.workOnHeader header part purpose) m
      (Action.workOnHeader (place.index header) part purpose) m' := by
  unfold Action.workOnHeader
  refine .next rfl rfl ?_
  rw [frames.program, frames.program']
  refine .look (R := fun l l' => Twins (place.gap header) l.cells l'.cells ∧
    (∀ n, place.gap header = some n → n < l.nextRef) ∧
      l'.nextRef = renumber (place.gap header) l.nextRef) ?_ ?_
  · intro l kept
    cases found : p.lines[header]? with
    | none => simp [Program.lineAt, found] at kept
    | some line =>
        obtain ⟨line', front, back, laid⟩ := place.laid found
        rw [Program.lineAt_eq found] at kept
        obtain ⟨l', kept', twins, next, next'⟩ :=
          Line.keepRange_twins first last laid.rest.ends laid.cells laid.twins laid.low kept
        refine ⟨l', ?_, twins, ?_, ?_⟩
        · rw [Program.lineAt_eq laid.found]
          exact kept'
        · rw [next]
          exact laid.above
        · rw [next, next', laid.nextRef]
  · rintro l l' ⟨twins, above, nextRef⟩
    refine .ok rfl rfl ?_
    exact { frames.withWork _ _ with
      work := fun _ => .line
        { index := rfl
          index' := rfl
          purpose := rfl
          trails := .none (.inr other)
          above := above
          nextRef := nextRef
          cells := (List.append_nil l.cells).symm
          twins := twins
          filled := fun more => absurd rfl more } }

include balanced loaded'

theorem leaveLoop (idle : m.loops = [] → place.Placed m m') :
    place.Keeps Action.leaveLoop m Action.leaveLoop m' := by
  unfold Action.leaveLoop
  refine .next rfl rfl ?_
  rcases frames.innermost_loop with ⟨none, none'⟩ | ⟨l, ls, l', ls', running, running', same, rest⟩
  · rw [none, none']
    exact .ok rfl rfl (idle none)
  rw [running, running']
  refine .next rfl rfl (.next rfl rfl ?_)
  rw [frames.program, frames.program', same.body]
  have left : place.Frames { m with loops := ls, symbols := m.symbols.unwind l.scopes }
      { m' with loops := ls', symbols := m'.symbols.unwind l'.scopes } :=
    { frames with
      loops := rest
      symbols := by rw [frames.symbols, same.scopes] }
  obtain ⟨close, ends⟩ := same.block.ends balanced
  exact left.follow balanced.loaded loaded' ends.linked

theorem testLoop (idle : m.loops = [] → place.Placed m m') :
    place.Keeps Action.testLoop m Action.testLoop m' := by
  unfold Action.testLoop
  refine .next rfl rfl ?_
  rcases frames.innermost_loop with ⟨none, none'⟩ | ⟨l, ls, l', ls', running, running', same, -⟩
  · rw [none, none']
    exact .ok rfl rfl (idle none)
  rw [running, running']
  dsimp only
  rw [same.condition, same.header]
  cases condition : l.condition with
  | none => exact frames.leaveLoop balanced loaded' idle
  | some part =>
      obtain ⟨first, last⟩ := same.clear part (.inl condition)
      exact frames.workOnHeader l.header first last nofun

theorem decideLoop (idle : m.loops = [] → place.Placed m m') {result result' : Option Token}
    (same : Option.Rel Token.Twin result result') :
    place.Keeps (Action.decideLoop result) m (Action.decideLoop result') m' := by
  unfold Action.decideLoop
  cases same with
  | none => exact frames.leaveLoop balanced loaded' idle
  | some twin =>
      refine .next rfl rfl (.except frames.sink (frames.valueOf twin) ?_)
      rintro value _ rfl
      refine .cause frames.sink fun holds _ => ?_
      cases holds with
      | false => exact frames.leaveLoop balanced loaded' idle
      | true =>
          rw [if_pos rfl, if_pos rfl]
          rcases frames.innermost_loop with ⟨none, none'⟩ |
            ⟨l, ls, l', ls', running, running', same, -⟩
          · rw [none, none']
            exact .ok rfl rfl (idle none)
          · rw [running, running']
            dsimp only
            rw [same.body]
            refine frames.goTo balanced.loaded loaded' ?_
            rintro _ ⟨⟩
            exact same.block.brace.linked

theorem nextIteration (idle : m.loops = [] → place.Placed m m') :
    place.Keeps Action.nextIteration m Action.nextIteration m' := by
  unfold Action.nextIteration
  refine .next rfl rfl ?_
  rcases frames.innermost_loop with ⟨none, none'⟩ | ⟨l, ls, l', ls', running, running', same, -⟩
  · rw [none, none']
    exact .ok rfl rfl (idle none)
  rw [running, running']
  dsimp only
  rw [same.step, same.header, same.scopes, frames.symbols]
  refine .next rfl rfl ?_
  have closed : place.Frames { m with symbols := m.symbols.unwind (l.scopes + 1) }
      { m' with symbols := m.symbols.unwind (l.scopes + 1) } :=
    { frames with symbols := rfl }
  cases step : l.step with
  | none => exact closed.testLoop balanced loaded' fun none => by cases running.symm.trans none
  | some part =>
      obtain ⟨first, last⟩ := same.clear part (.inr step)
      exact closed.workOnHeader l.header first last nofun

theorem obeySignal (signal : Signal) (line line' : Nat) :
    place.Keeps (Action.obeySignal signal line) m (Action.obeySignal signal line') m' := by
  unfold Action.obeySignal
  refine .next rfl rfl ?_
  rcases frames.innermost_loop with ⟨none, none'⟩ | ⟨l, ls, l', ls', running, running', same, -⟩
  · rw [none, none']
    exact .fail frames.sink rfl
  have idle : m.loops = [] → place.Placed m m' := fun none => by cases running.symm.trans none
  rw [running, running']
  dsimp only
  rw [same.calls, ← frames.calls.length_eq]
  split
  · cases signal with
    | «break» => exact frames.leaveLoop balanced loaded' idle
    | «continue» => exact frames.nextIteration balanced loaded' idle
  · exact .fail frames.sink rfl

end

theorem beginLoop (frames : place.Frames m m') {header : Nat} {form : LoopForm}
    {init condition step : Option HeaderPart} {body : Extent} (block : p.IsBlock body)
    (clear : ∀ part, condition = some part ∨ step = some part →
      place.gap header ≠ some part.1 ∧ place.gap header ≠ some part.2) :
    Action.Agree (fun _ _ n n' => place.Frames n n' ∧ n.loops ≠ [])
      (Action.beginLoop
        { form, header, init, condition, step, body
          scopes := m.symbols.depth
          calls := m.calls.length }) m
      (Action.beginLoop
        { form, init, condition, step
          header := place.index header
          body := place.extent body
          scopes := m'.symbols.depth
          calls := m'.calls.length }) m' := by
  unfold Action.beginLoop
  refine .next rfl rfl (.next rfl rfl (.ok rfl rfl ⟨?_, by simp⟩))
  refine
    { frames with
      symbols := congrArg Symbols.push frames.symbols
      loops := .cons ?_ frames.loops }
  exact
    { header := rfl
      condition := rfl
      step := rfl
      body := rfl
      scopes := by rw [frames.symbols]
      calls := frames.calls.length_eq.symm
      block
      clear }

end Frames

end Placement

end LineScript
