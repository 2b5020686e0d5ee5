import LineScript.Proofs.Nesting.Calls
import LineScript.Proofs.Placement.Reduction

/-!
# Calls on both machines

A call leaves a frame on both machines, and its value goes to the same place of the two lines.
-/

namespace LineScript

namespace Placement

variable {p p' : Program} {place : Placement p.lines p'.lines} {m m' n n' : Machine} {t : Nat}
  {tail : List Cell} {f f' : Focus}

/-!
## Making a call
-/

namespace Frames

theorem follow (frames : place.Frames m m') (loaded : p.Loaded) (loaded' : p'.Loaded) {b : Position}
    (linked : p.Linked b) :
    place.Keeps (Action.ofFault (p.following b) >>= Action.goTo) m
      (Action.ofFault (p'.following (place.position b)) >>= Action.goTo) m' := by
  obtain ⟨next, follows, follows', there⟩ := place.following loaded loaded' linked
  rw [follows, follows']
  exact .next rfl rfl (frames.goTo loaded loaded' there)

theorem findFunction (frames : place.Frames m m') (target : String) (line line' : Nat) :
    Concur place.SameFunction
      ((match m.functions.get? target with
        | some f => Except.ok f
        | none => Except.error (Cause.undefinedFunction target)).mapError (Stop.at line))
      ((match m'.functions.get? target with
        | some f => Except.ok f
        | none => Except.error (Cause.undefinedFunction target)).mapError (Stop.at line')) := by
  rcases frames.functions_get? target with ⟨none, none'⟩ | ⟨f, f', found, found', same⟩
  · rw [none, none']
    exact .error rfl
  · rw [found, found']
    exact .ok same

theorem callee (frames : place.Frames m m') (name : String) (line line' : Nat) :
    Concur place.SameFunction ((m.callee name).mapError (.at line))
      ((m'.callee name).mapError (.at line')) := by
  unfold Machine.callee
  rw [frames.symbols]
  exact frames.findFunction _ line line'

theorem readArguments (frames : place.Frames m m') {gap : Option Ref} {cells cells' : List Cell}
    (twins : Twins gap cells cells') (close close' : Cell) (read : List Value) (expecting : Bool) :
    Concur Eq (Action.readArguments m close read expecting cells)
      (Action.readArguments m' close' read expecting cells') := by
  induction twins generalizing read expecting with
  | nil =>
      simp only [Action.readArguments]
      split
      · exact .error rfl
      · exact .ok rfl
  | cons twin twins ih =>
      simp only [Action.readArguments, twin.kind]
      split
      · exact ih read true
      · split
        · refine .bind (frames.valueOf twin.token) ?_
          rintro v _ rfl
          exact ih (read ++ [v]) false
        · exact .error rfl

theorem bindParameters (frames : place.Frames n n') (line line' : Nat)
    (params : List (Parameter × Value)) :
    Action.Agree (fun _ _ => place.Frames) (Action.bindParameters line params) n
      (Action.bindParameters line' params) n' := by
  induction params generalizing n n' with
  | nil => exact .ok rfl rfl frames
  | cons param params ih =>
      obtain ⟨q, v⟩ := param
      unfold Action.bindParameters
      refine .next rfl rfl ?_
      rw [frames.symbols]
      refine .cause frames.sink fun symbols _ => .next rfl rfl (ih ?_)
      exact { frames with symbols := rfl }

end Frames

namespace Acts

variable (acts : place.Acts t tail f f' m m')

include acts

theorem calleeBefore? :
    (Action.calleeBefore? f = none ∧ Action.calleeBefore? f' = none) ∨
      ∃ c c' name, f.before.head? = some c ∧ f'.before.head? = some c' ∧ c.Twin (place.gap t) c' ∧
        Action.calleeBefore? f = some (c.ref, name) ∧
        Action.calleeBefore? f' = some (c'.ref, name) := by
  unfold Action.calleeBefore?
  rcases acts.prev? with ⟨c, c', here, here', twin⟩ | ⟨brace, none⟩
  · rw [here, here', Option.bind_some, Option.bind_some, twin.kind]
    cases c.token.kind.name? with
    | none => exact .inl ⟨rfl, rfl⟩
    | some name => exact .inr ⟨c, c', name, here, here', twin, rfl, rfl⟩
  · refine .inl ⟨?_, by rw [none]; rfl⟩
    cases here : f.prev? with
    | none => rfl
    | some c => rw [Option.bind_some, brace c here]; rfl

theorem beginCall (loaded : p.Loaded) (loaded' : p'.Loaded)
    {inner inner' rest rest' : List Cell} {close close' : Cell}
    (after : f.after = inner ++ close :: (rest ++ tail))
    (after' : f'.after = inner' ++ close' :: rest')
    (hinner : Twins (place.gap t) inner inner') (hclose : close.Twin (place.gap t) close')
    (hrest : Twins (place.gap t) rest rest') :
    place.Keeps (Action.beginCall f inner close) m (Action.beginCall f' inner' close') m' := by
  unfold Action.beginCall
  dsimp only
  rcases acts.calleeBefore? with
    ⟨none, none'⟩ | ⟨name, name', text, here, here', twin, found, found'⟩
  · rw [none, none']
    exact .fail acts.sink rfl
  rw [found, found']
  have frames := acts.frames
  refine .next rfl rfl (.except acts.sink (frames.readArguments hinner ..) ?_)
  rintro args _ rfl
  refine .except acts.sink (frames.callee ..) fun function function' same => ?_
  have checked : Action.checkArguments function' args = Action.checkArguments function args := by
    simp only [Action.checkArguments, same.parameters, same.name]
  rw [checked]
  refine .cause acts.sink fun _ _ => .next rfl rfl (.next rfl rfl ?_)
  -- The call is on the stacks of both machines.
  obtain ⟨before, hbefore⟩ := List.head?_eq_some_iff.1 here
  obtain ⟨before', hbefore'⟩ := List.head?_eq_some_iff.1 here'
  have onLeft := acts.twin.before
  rw [hbefore, hbefore'] at onLeft
  have cells : m.work.line.cells =
      (before.reverse ++ name :: f.cell :: (inner ++ close :: rest)) ++ tail := by
    rw [← acts.whole, Focus.cells, hbefore, after]
    simp
  have cells' : m'.work.line.cells =
      before'.reverse ++ name' :: f'.cell :: (inner' ++ close' :: rest') := by
    rw [← acts.whole', Focus.cells, hbefore', after']
    simp
  have onLeft := (List.forall₂_cons.1 onLeft).2
  have twins : Twins (place.gap t) (before.reverse ++ name :: f.cell :: (inner ++ close :: rest))
      m'.work.line.cells := by
    rw [cells']
    exact (Twins.reverse onLeft).append
      (.cons twin (.cons acts.twin.cell (hinner.append (.cons hclose hrest))))
  have saved : place.Reducing t (before.reverse ++ name :: f.cell :: (inner ++ close :: rest)) tail
      m.work m'.work := { acts.on with cells := cells, twins := twins, filled := by simp }
  have call : place.SameCall
      { function, origin := m.work.index, nameRef := name.ref, closeRef := close.ref,
        scopes := m.symbols.depth, loops := m.loops.length, saved := m.work }
      { function := function', origin := m'.work.index, nameRef := name'.ref,
        closeRef := close'.ref, scopes := m'.symbols.depth, loops := m'.loops.length,
        saved := m'.work } :=
    { function := same
      scopes := by rw [frames.symbols]
      loops := frames.loops.length_eq.symm
      site := ⟨t, before.reverse, name, f.cell, inner, close, rest, tail, saved, rfl, rfl, twin.ref,
        hclose.ref⟩ }
  rw [same.parameters]
  refine .bind (P := fun _ _ => place.Frames) (Frames.bindParameters ?_ ..) ?_
  · exact { frames with
      symbols := congrArg Symbols.push frames.symbols
      calls := .cons call frames.calls }
  · intro _ _ k k' inBody
    refine .next rfl rfl (.next rfl rfl ?_)
    rw [inBody.program, inBody.program', same.body]
    exact inBody.follow loaded loaded' same.block.brace.linked

end Acts

/-!
## Returning
-/

namespace Frames

variable (frames : place.Frames m m')

include frames

theorem endCall (sound : ∀ c ∈ m.calls, c.saved.line.Sound)
    (sound' : ∀ c ∈ m'.calls, c.saved.line.Sound)
    (value : Value) (line line' : Nat) :
    place.Keeps (Action.endCall value line) m (Action.endCall value line') m' := by
  unfold Action.endCall
  refine .next rfl rfl ?_
  rcases frames.innermost_call with ⟨none, none'⟩ | ⟨c, cs, c', cs', made, made', same, rest⟩
  · rw [none, none']
    exact .fail frames.sink rfl
  rw [made] at sound
  rw [made'] at sound'
  rw [made, made']
  dsimp only
  refine .next rfl rfl ?_
  rw [same.function.returns]
  split
  · exact .fail frames.sink rfl
  refine .next rfl rfl (.next rfl rfl ?_)
  obtain ⟨t, before, name, opening, args, close, after, tail, saved, refN, refC, refN', refC'⟩ :=
    same.site
  have twins := saved.twins
  obtain ⟨before', name', more, cells', onLeft, twin, onRight⟩ := twins.split
  obtain ⟨opening', more, -, inArgs, rfl⟩ := List.forall₂_cons_left_iff.1 onRight
  obtain ⟨args', close', after', rfl, -, twinClose, behind⟩ := Twins.split inArgs
  have cells : c.saved.line.cells =
      before ++ name :: opening :: (args ++ close :: (after ++ tail)) := by
    rw [saved.cells]
    simp
  rw [refN, refC, refN', refC', ← twin.ref, ← twinClose.ref]
  have focus := Line.focus_eq (sound c (by simp)).distinct before cells
  have focus' := Line.focus_eq (sound' c' (by simp)).distinct before' cells'
  obtain ⟨-, -, answered⟩ := Machine.answer_eq (sound c (by simp)) cells focus
  obtain ⟨-, -, answered'⟩ := Machine.answer_eq (sound' c' (by simp)) cells' focus'
  refine settled (Action.settles_returned (by exact focus) close.ref value)
    (Action.settles_returned (by exact focus') close'.ref value) (sound c (by simp)).distinct
    (sound' c' (by simp)).distinct ?_
  rw [answered, answered', List.reverse_reverse, List.reverse_reverse]
  refine placed_result rfl onLeft (twin.literal ..) behind ?_ saved.toOnLine 1
  exact { frames with
    symbols := by
      change m'.symbols.unwind c'.scopes = m.symbols.unwind c.scopes
      rw [frames.symbols, same.scopes]
    calls := rest
    loops := by
      change List.Forall₂ _ (m.loops.drop (m.loops.length - c.loops))
        (m'.loops.drop (m'.loops.length - c'.loops))
      rw [← frames.loops.length_eq, same.loops]
      exact List.forall₂_drop _ frames.loops }

end Frames

theorem Acts.giveBack (acts : place.Acts t tail f f' m m') (alone : tail = [])
    (sound : ∀ c ∈ m.calls, c.saved.line.Sound) (sound' : ∀ c ∈ m'.calls, c.saved.line.Sound) :
    place.Keeps (Action.giveBack f) m (Action.giveBack f') m' := by
  obtain ⟨front, split, twins⟩ := acts.twin.after
  rw [alone, List.append_nil] at split
  unfold Action.giveBack
  rw [split]
  generalize f'.after = front' at twins
  have gives (value : Value) := acts.frames.endCall sound sound' value f.cell.token.line
    f'.cell.token.line
  cases twins with
  | nil => exact .next rfl rfl (gives .null)
  | cons twin twins =>
      cases twins with
      | nil => exact .value acts.frames twin.token gives
      | cons _ _ => exact .stopped (.stray acts.sink)

end Placement

end LineScript
