import LineScript.Proofs.Atomicity
import LineScript.Proofs.Nesting.Transparency
import LineScript.Proofs.Placement.Control

/-!
# Steps of both machines

Machines that are placed alike pick the same token and act on it, and are placed alike afterwards
(`Placement.Placed.step`).  Where the brace of a header follows on the first line only, what acts is
the keyword of the header or a token of its condition (`Machine.Doing.inHeader`), and no such action
looks as far as the brace.  The brace itself acts when all before it is gone: then the second
machine has gone to the next line.
-/

namespace LineScript

def Focus.InHeader (f : Focus) : Prop :=
  (∃ k, f.cell.token.kind = .keyword k ∧ (k.headsBlock = true ∨ k = .else)) ∨
    f.before ≠ [] ∧ f.cell.token.kind.isPlain = true ∧ f.cell.token.kind ≠ .keyword .system

theorem Focus.chosen_control {c : Cell} {cs : List Cell} (fresh : ∀ d ∈ c :: cs, d.Fresh)
    (high : c.token.kind.basePriority = Priority.control) : Focus.Chosen ⟨[], c, cs⟩ := by
  refine ⟨nofun, ?_⟩
  intro d hd
  rw [(fresh d (List.mem_cons_of_mem _ hd)).1, (fresh c (by simp)).1, high]
  exact d.token.kind.basePriority_le_control

theorem Focus.Twin.chosen {gap : Option Ref} {tail : List Cell} {f f' : Focus}
    (twin : f.Twin gap tail f')
    (chosen : f.Chosen) : f'.Chosen := by
  obtain ⟨front, split, onRight⟩ := twin.after
  constructor
  · intro c' member
    obtain ⟨c, here, same⟩ := Twins.mem_left twin.before member
    rw [same.token.priority, twin.cell.token.priority]
    exact chosen.left c here
  · intro c' member
    obtain ⟨c, here, same⟩ := Twins.mem_left onRight member
    rw [same.token.priority, twin.cell.token.priority]
    exact chosen.right c (by simp [split, here])

/-- The token that a step acts on: a brace at the start of the line, else the chosen one. -/
theorem Work.Stems.picked {w : Work} {p : Program} {n : Nat} (stems : w.Stems p n) {c : Cell}
    {cs : List Cell} (cells : w.line.cells = c :: cs) :
    ∃ f : Focus, f.cells = w.line.cells ∧ Action.choice? w = some f.cell.ref ∧
      w.line.focus f.cell.ref = .ok f ∧
      (c.token.kind.isScopeBracket = true ∧ f = ⟨[], c, cs⟩ ∨
        c.token.kind.isScopeBracket = false ∧ f.Chosen) := by
  have located (f : Focus) (whole : f.cells = w.line.cells) : w.line.focus f.cell.ref = .ok f :=
    Line.focus_eq_ok stems.sound.distinct whole
  cases bracket : c.token.kind.isScopeBracket with
  | true =>
      have whole : (⟨[], c, cs⟩ : Focus).cells = w.line.cells := cells.symm
      have highest : w.line.highest? = some c.ref := by simp [Line.highest?, cells, bracket]
      refine ⟨_, whole, ?_, located _ whole, .inl ⟨rfl, rfl⟩⟩
      cases picked : w.selected with
      | none => simp [Action.choice?, picked, highest]
      | some r =>
          obtain ⟨d, ds, same, rfl, -⟩ := stems.selected r picked
          cases cells.symm.trans same
          rw [Action.choice?, picked, highest]
          simp [Option.filter]
          split <;> rfl
  | false =>
      have unselected : w.selected = none := by
        cases picked : w.selected with
        | none => rfl
        | some r =>
            obtain ⟨d, ds, same, -, kind⟩ := stems.selected r picked
            cases cells.symm.trans same
            rw [kind] at bracket
            cases bracket
      obtain ⟨f, whole, chosen, highest⟩ :=
        Line.exists_chosen (l := w.line) (by rw [cells]; rfl) bracket
      have picked : Action.choice? w = some f.cell.ref := by
        simp [Action.choice?, unselected, highest]
      exact ⟨f, whole, picked, located f whole, .inr ⟨rfl, chosen⟩⟩

theorem Work.Stems.picked_brace {w : Work} {p : Program} {n : Nat} (stems : w.Stems p n) {c : Cell}
    (cells : w.line.cells = [c]) (kind : c.token.kind = .openBrace) :
    Action.choice? w = some c.ref ∧ w.line.focus c.ref = .ok ⟨[], c, []⟩ := by
  have bracket : c.token.kind.isScopeBracket = true := by rw [kind]; rfl
  obtain ⟨f, -, choice, focus, ⟨-, rfl⟩ | ⟨other, -⟩⟩ := stems.picked cells
  · exact ⟨choice, focus⟩
  · rw [bracket] at other
    cases other

namespace Action

variable {m : Machine}

theorem step_of_finished (finished : m.finished = true) : step m = (pure () : Action Unit) m := by
  unfold step
  rw [bind_of_ok _ (show (get m).result = .ok m from rfl)]
  simp [finished]

theorem step_of_empty (running : m.finished = false) (empty : m.work.line.cells = []) :
    step m = conclude none m := by
  unfold step
  rw [bind_of_ok _ (show (get m).result = .ok m from rfl)]
  simp [running, Line.isEmpty, empty]

end Action

section

variable {m : Machine} {p : Program} {stack : List Scope} {t : Nat} {front : List Cell}
    {brace : Cell}
  {f : Focus}

private theorem headed_by_keyword {line : Line} {before rest : List Cell} {c : Cell} {k : Keyword}
    (balanced : p.Balanced) (found : p.lines[t]? = some line)
    (cells : line.cells = before ++ c :: rest) (kind : c.token.kind = .keyword k)
    (first : k.priority = Priority.control) (header : k.headsBlock = true ∨ k = .else)
    (same : c :: rest = front ++ [brace]) (filled : front ≠ []) (whole : f.cells = c :: rest)
    (chosen : f.Chosen) : ∃ after, f.after = after ++ [brace] ∧ f.InHeader := by
  have fresh := (balanced.loaded.line found).fresh
  have lead : Focus.Chosen ⟨[], c, rest⟩ := Focus.chosen_control
    (fun d hd => fresh d (by rw [cells]; exact List.mem_append_right _ hd))
    (by rw [kind]; exact first)
  obtain rfl := Line.chosen_unique (g := ⟨[], c, rest⟩) whole chosen lead
  obtain ⟨d, after, rfl⟩ := List.exists_cons_of_ne_nil filled
  exact ⟨after, (List.cons.inj same).2, .inl ⟨k, kind, header⟩⟩

theorem Machine.Doing.inHeader (doing : m.Doing p stack t) (balanced : p.Balanced)
    (cells : m.work.line.cells = front ++ [brace]) (kind : brace.token.kind = .openBrace)
    (filled : front ≠ []) :
    (∀ c, m.work.line.cells.head? = some c → c.token.kind.isScopeBracket = false) ∧
      ∀ f : Focus, f.cells = m.work.line.cells → f.Chosen →
        ∃ after, f.after = after ++ [brace] ∧ f.InHeader := by
  have notOne (c : Cell) : [c] ≠ front ++ [brace] := by
    intro same
    exact filled (List.append_singleton_inj.1 (show [] ++ [c] = front ++ [brace] from same)).1.symm
  cases doing with
  | done _ empty =>
      rw [cells] at empty
      simp at empty
  | brace works => exact absurd (works.holds.symm.trans cells) (notOne _)
  | closing works => exact absurd (works.holds.symm.trans cells) (notOne _)
  | passing works kindC found whole =>
      rw [works.holds]
      rw [works.holds] at cells
      refine ⟨?_, fun f same chosen => ?_⟩
      · rintro c ⟨⟩
        rw [kindC]
        rfl
      · exact headed_by_keyword balanced found whole kindC rfl (.inr rfl) cells filled same chosen
  | @keyword _ _ mid tail c k works kindC first _ _ found whole plain after =>
      rw [works.holds]
      rw [works.holds] at cells
      refine ⟨?_, fun f same chosen => ?_⟩
      · rintro c ⟨⟩
        rw [kindC]
        rfl
      · have heads : k.headsBlock = true := by
          cases after with
          | brace _ heads _ => exact heads
          | none =>
              have member : brace ∈ c :: (mid ++ []) := by rw [cells]; simp
              rw [List.append_nil] at member
              rcases List.mem_cons.1 member with rfl | member
              · rw [kind] at kindC
                cases kindC
              · exact absurd kind (ne_openBrace_of_isPlain (plain brace member))
        exact headed_by_keyword balanced found whole kindC first
          (.inl heads) cells filled same chosen
  | @reducing pre mid post _ reduces =>
      have slot := reduces.slot
      have split := reduces.cells
      refine ⟨fun c hc => slot.noBrace reduces.plain (split ▸ hc), fun f whole chosen => ?_⟩
      have member : brace ∈ pre ++ mid ++ post := by rw [← split, cells]; simp
      have notMid : brace ∉ mid := fun inMid =>
        ne_openBrace_of_isPlain (reduces.plain brace inMid) kind
      generalize m.work.index = i at slot
      generalize m.work.purpose = purpose at slot
      cases slot with
      | statement => exact absurd (by simpa using member) notMid
      | header => exact absurd (by simpa using member) notMid
      | @giveBack c _ _ kindC =>
          have other : brace ≠ c := by rintro rfl; rw [kind] at kindC; cases kindC
          exact absurd (by simpa [other] using member) notMid
      | @branch _ _ _ _ c settled found whole' kindC fresh tail =>
          have other : brace ≠ c := by rintro rfl; rw [kind] at kindC; cases kindC
          rcases tail with ⟨rfl, -⟩ | ⟨d, rfl, kindD, freshD⟩
          · exact absurd (by simpa [other] using member) notMid
          · obtain ⟨-, rfl⟩ := List.append_singleton_inj.1 (split.symm.trans cells)
            rcases f.cases_parts (whole.trans split) with ⟨more, inside, after⟩ |
              ⟨left, right, middle, before, after⟩ | ⟨more, inside, before⟩
            · rcases List.append_eq_singleton_iff.1 inside.symm with ⟨-, one⟩ | ⟨-, none⟩
              · obtain ⟨rfl, rfl⟩ := List.cons.inj one
                exact ⟨mid, after, .inl ⟨.if, kindC, .inl rfl⟩⟩
              · cases none
            · refine ⟨right, after, .inr ⟨by simp [before], ?_, ?_⟩⟩
              · exact reduces.plain f.cell (by simp [middle])
              · exact reduces.free (by simp) f.cell (by simp [middle])
            · exact absurd (Machine.Slot.not_after (.branch settled found whole' kindC fresh
                (.inr ⟨d, rfl, kindD, freshD⟩)) chosen inside before) id

end

theorem Machine.Sane.saved_sound {m : Machine} {p : Program} {n : Nat} (sane : m.Sane p n) :
    ∀ c ∈ m.calls, c.saved.line.Sound :=
  fun c hc => (sane.calls c hc).stems.sound

namespace Placement

variable {p p' : Program} {place : Placement p.lines p'.lines} {m m' : Machine} {t n n' : Nat}
  {tail : List Cell} {f f' : Focus}

namespace Acts

variable (acts : place.Acts t tail f f' m m') (alone : tail = [])

include acts alone

theorem markSignal (signal : Signal) :
    place.Keeps (Action.markSignal f signal) m (Action.markSignal f' signal) m' := by
  subst alone
  refine .ok rfl rfl ?_
  exact { acts.frames with
    work := fun _ => .line
      { index := acts.on.index
        index' := acts.on.index'
        purpose := acts.on.purpose
        trails := acts.on.trails
        above := fun n same => Nat.lt_succ_of_lt (acts.on.above n same)
        nextRef := by
          change m'.work.line.nextRef + 1 = renumber _ (m.work.line.nextRef + 1)
          rw [acts.on.nextRef, renumber_add acts.on.above]
        cells := (List.append_nil _).symm
        twins := .cons ⟨⟨rfl, rfl, rfl⟩, acts.on.nextRef,
          fun same => Nat.lt_irrefl _ (acts.on.above _ same)⟩ .nil
        filled := fun more => absurd rfl more } }

theorem dropBrace :
    place.Placed (m.onLine (f.before.reverse ++ f.after) 0)
      (m'.onLine (f'.before.reverse ++ f'.after) 0) := by
  subst alone
  obtain ⟨front, split, twins⟩ := acts.twin.after
  rw [List.append_nil] at split
  subst split
  exact placed_onLine _ (List.append_nil _).symm (acts.twin.before.reverse.append twins)
    (fun more => absurd rfl more) acts.frames acts.on 0

omit alone in
theorem removed :
    (Action.remove f.cell.ref).outcome m = .ok ((), m.onLine (f.before.reverse ++ f.after) 0) ∧
      (Action.remove f'.cell.ref).outcome m' =
        .ok ((), m'.onLine (f'.before.reverse ++ f'.after) 0) :=
  ⟨(Action.settles_drop acts.whole).outcome acts.sound.distinct,
    (Action.settles_drop acts.whole').outcome acts.sound'.distinct⟩

theorem openBlock : place.Keeps (Action.openBlock f) m (Action.openBlock f') m' := by
  refine .next rfl rfl (.next acts.removed.1 acts.removed.2 (.ok rfl rfl ?_))
  have placed := acts.dropBrace alone
  exact { placed with symbols := congrArg Symbols.push acts.frames.symbols }

omit alone in
theorem endsLoop (balanced : p.Balanced) :
    Action.endsLoop m' (place.index t) = Action.endsLoop m t := by
  unfold Action.endsLoop
  rcases acts.frames.innermost_loop with ⟨none, none'⟩ | ⟨l, ls, l', ls',
    running, running', same, -⟩
  · rw [none, none']
  · rw [running, running']
    have line : l'.body.closing.line = place.index l.body.closing.line := by
      rw [same.body]
      exact place.position_close same.block balanced
    simp only [line, place.index_inj, same.calls, acts.frames.calls.length_eq]

theorem closeBlock (balanced : p.Balanced) (loaded' : p'.Loaded)
    (sound : ∀ c ∈ m.calls, c.saved.line.Sound) (sound' : ∀ c ∈ m'.calls, c.saved.line.Sound) :
    place.Keeps (Action.closeBlock f) m (Action.closeBlock f') m' := by
  have dropped := acts.dropBrace alone
  have closed : place.Placed
      { m.onLine (f.before.reverse ++ f.after) 0 with symbols := m.symbols.pop }
      { m'.onLine (f'.before.reverse ++ f'.after) 0 with symbols := m'.symbols.pop } :=
    { dropped with symbols := by rw [acts.frames.symbols] }
  unfold Action.closeBlock
  refine .next rfl rfl (.next acts.removed.1 acts.removed.2 (.next rfl rfl (.next rfl rfl ?_)))
  rw [acts.on.index, acts.on.index', acts.endsLoop balanced]
  split
  · exact closed.toFrames.nextIteration balanced loaded' fun _ => closed
  · rcases acts.frames.innermost_call with ⟨none, none'⟩ | ⟨c, cs, c', cs', made, made', same, -⟩
    · rw [none, none']
      exact .ok rfl rfl closed
    · rw [made, made']
      have line : c'.function.body.closing.line = place.index c.function.body.closing.line := by
        rw [same.function.body]
        exact place.position_close same.function.block balanced
      simp only [line, place.index_inj, same.function.returns]
      split
      · split
        · exact .fail acts.sink rfl
        · exact closed.toFrames.endCall sound sound' .null _ _
      · exact .ok rfl rfl closed

end Acts

/-!
## Completing a line
-/

theorem Frames.nextLine (frames : place.Frames m m') {purpose : Purpose}
    (trails : place.Trails t purpose []) (aim : purpose = .statement) :
    place.Keeps (Action.goToLine (t + 1)) m (Action.goToLine (place.index t + 1)) m' := by
  cases trails with
  | none whole =>
      have gap : place.gap t = none := whole.resolve_right fun other => other aim
      rw [← place.index_succ_none gap]
      exact frames.goToLine (t + 1)

theorem Frames.conclude (frames : place.Frames m m') (balanced : p.Balanced) (loaded' : p'.Loaded)
    (works : place.Reducing t [] [] m.work m'.work) {result result' : Option Token}
    (same : Option.Rel Token.Twin result result') :
    place.Keeps (Action.conclude result) m (Action.conclude result') m' := by
  have idle : m.loops = [] → place.Placed m m' := fun _ =>
    { frames with work := fun _ => .line works }
  unfold Action.conclude
  refine .next rfl rfl ?_
  rw [works.purpose, works.index, works.index']
  cases aim : m.work.purpose with
  | loopInit => exact frames.testLoop balanced loaded' idle
  | loopStep => exact frames.testLoop balanced loaded' idle
  | loopCondition => exact frames.decideLoop balanced loaded' idle same
  | statement =>
      have next := frames.nextLine works.trails aim
      cases same with
      | none => exact next
      | @some token token' twin =>
          simp only [Action.signalOf?, Option.bind_some, twin.kind]
          cases token.kind with
          | signal signal => exact frames.obeySignal balanced loaded' signal _ _
          | _ => exact next

/-!
## Acting on a token
-/

/-- The token may act: it is in a header if a brace follows, and it is no jump. -/
structure Able (tail : List Cell) (f : Focus) : Prop where
  ahead : tail ≠ [] → f.InHeader
  noGoto : f.cell.token.kind ≠ .keyword .goto
  noGoback : f.cell.token.kind ≠ .keyword .goback

theorem Able.alone (able : Able tail f) (notHeader : ∀ k, f.cell.token.kind = .keyword k →
    k.headsBlock = false ∧ k ≠ .else) (notPlain : f.cell.token.kind.isPlain = false ∨
      f.cell.token.kind = .keyword .system) : tail = [] := by
  by_contra more
  rcases able.ahead more with ⟨k, kind, heads | other⟩ | ⟨-, plain, notSystem⟩
  · rw [(notHeader k kind).1] at heads
    cases heads
  · exact (notHeader k kind).2 other
  · rcases notPlain with notPlain | system
    · rw [plain] at notPlain
      cases notPlain
    · exact notSystem system

structure Grounded (p p' : Program) (n n' : Nat) (m m' : Machine) : Prop where
  balanced : p.Balanced
  loaded' : p'.Loaded
  numbered : ∀ line ∈ p.lines, line.Numbered
  numbered' : ∀ line ∈ p'.lines, line.Numbered
  sane : m.Sane p n
  sane' : m'.Sane p' n'

namespace Acts

variable (acts : place.Acts t tail f f' m m') (base : Grounded p p' n n' m m') (able : Able tail f)

include acts base able

theorem applyKeyword {k : Keyword} (kind : f.cell.token.kind = .keyword k) :
    place.Keeps (Action.applyKeyword f k) m (Action.applyKeyword f' k) m' := by
  have alone (plain : k.headsBlock = false) (other : k ≠ .else) : tail = [] := by
    refine able.alone (fun l same => ?_) ?_
    · cases kind.symm.trans same
      exact ⟨plain, other⟩
    · rw [kind]
      cases k <;> simp [TokenKind.isPlain, TokenKind.isControl]
  cases k with
  | «if» => exact acts.branch base.balanced base.loaded' base.sane kind
  | «else» => exact acts.passElse base.balanced base.loaded' base.sane kind
  | «while» =>
      exact acts.startWhile base.balanced base.loaded' base.sane base.numbered base.numbered' kind
  | «for» => exact acts.startFor base.balanced base.loaded' base.sane kind
  | goto => exact absurd kind able.noGoto
  | goback => exact absurd kind able.noGoback
  | define => exact acts.define base.balanced base.loaded' base.sane kind
  | «return» =>
      exact acts.giveBack (alone rfl (by simp)) base.sane.saved_sound base.sane'.saved_sound
  | system => exact acts.callBuiltin (alone rfl (by simp))
  | «break» => exact acts.markSignal (alone rfl (by simp)) .break
  | «continue» => exact acts.markSignal (alone rfl (by simp)) .continue

theorem perform : place.Keeps (Action.perform f) m (Action.perform f') m' := by
  have paren {b : Bracket} (kind : f.cell.token.kind = .bracket b .opening) (round : b ≠ .scope) :
      place.Keeps (Action.applyParen f b) m (Action.applyParen f' b) m' :=
    acts.applyParen kind round fun _ _ _ _ _ _ after after' hinner hclose hrest =>
      acts.beginCall base.balanced.loaded base.loaded' after after' hinner hclose hrest
  unfold Action.perform
  rw [acts.twin.kind]
  cases kind : f.cell.token.kind with
  | bracket b side =>
      cases b with
      | scope =>
          have alone : tail = [] := able.alone (by rw [kind]; nofun) (.inl (by rw [kind]; rfl))
          cases side with
          | opening => exact acts.openBlock alone
          | closing =>
              exact acts.closeBlock alone base.balanced base.loaded' base.sane.saved_sound
                base.sane'.saved_sound
      | paren =>
          cases side with
          | opening => exact paren kind nofun
          | closing => exact .stray acts.sink
      | call =>
          cases side with
          | opening => exact paren kind nofun
          | closing => exact .stray acts.sink
  | operator op =>
      dsimp only
      split
      · exact acts.assign op
      · split
        · exact acts.applyUnary op
        · exact acts.applyBinary op
  | type type => exact acts.declare type
  | template template => exact acts.expandTemplate template
  | keyword k => exact acts.applyKeyword base able kind
  | _ => exact .stray acts.sink

theorem act : place.Keeps (Action.act f) m (Action.act f') m' := by
  unfold Action.act
  dsimp only
  rw [acts.twin.kind]
  split
  · rename_i inert
    have onLeft := acts.twin.before
    obtain ⟨front, split, onRight⟩ := acts.twin.after
    simp only [Focus.next?, Focus.prev?, split]
    generalize before : f.before = xs, before' : f'.before = xs' at onLeft
    cases onLeft with
    | @cons d d' ds ds' =>
        -- There is a neighbour on both lines, perhaps not the same one.
        have near (after : List Cell) (d : Cell) (ds : List Cell) :
            ∃ e, (after.head? <|> (d :: ds).head?) = some e := by
          cases after <;> exact ⟨_, rfl⟩
        obtain ⟨e, here⟩ := near (front ++ tail) d ds
        obtain ⟨e', here'⟩ := near f'.after d' ds'
        rw [here, here']
        exact .stray acts.sink
    | nil =>
        have alone : tail = [] := by
          by_contra more
          rcases able.ahead more with ⟨k, kind, -⟩ | ⟨filled, -⟩
          · rw [kind] at inert
            cases inert
          · exact filled before
        subst alone
        generalize after' : f'.after = front' at onRight
        cases onRight with
        | cons _ _ => exact .stray acts.sink
        | nil =>
            have cleared : place.Reducing t [] [] (m.onLine (f.before.reverse ++ f.after) 0).work
                (m'.onLine (f'.before.reverse ++ f'.after) 0).work :=
              { acts.on with
                cells := by
                  rw [Machine.onLine_cells, before, split]
                  rfl
                twins := by
                  rw [Machine.onLine_cells, before', after']
                  exact .nil
                filled := fun more => absurd rfl more }
            exact .next acts.removed.1 acts.removed.2 ((acts.frames.withWork _ _).conclude
              base.balanced base.loaded' cleared (.some acts.twin.cell.token))
  · exact .next rfl rfl (.next rfl rfl (acts.perform base able))

end Acts

/-!
## Steps
-/

theorem able_of_sane (sane : m.Sane p n) (structured : p.BlockStructured) (jumpless : p.GotoFree)
    (whole : f.cells = m.work.line.cells) (ahead : tail ≠ [] → f.InHeader) : Able tail f := by
  have member : f.cell ∈ m.work.line.cells := by simp [← whole, Focus.cells]
  have absent {k : Keyword} (never : ∀ line ∈ p.lines, .keyword k ∉ line.kinds) :
      f.cell.token.kind ≠ .keyword k := by
    intro kind
    obtain ⟨line, d, found, hd, -, same⟩ := sane.work.anchors f.cell member (by rw [kind]; rfl)
    exact never line (List.mem_of_getElem? found) (List.mem_map.2 ⟨d, hd, same.trans kind⟩)
  exact ⟨ahead, absent jumpless, absent structured.noGoback⟩

theorem Reducing.picked {c : Cell} {front : List Cell} {stack : List Scope}
    (works : place.Reducing t (c :: front) tail m.work m'.work) (base : Grounded p p' n n' m m')
    (nested : m.Nested p stack) (running : m.finished = false) (structured : p.BlockStructured)
    (jumpless : p.GotoFree) :
    ∃ f f', Action.choice? m.work = some f.cell.ref ∧ m.work.line.focus f.cell.ref = .ok f ∧
      Action.choice? m'.work = some f'.cell.ref ∧ m'.work.line.focus f'.cell.ref = .ok f' ∧
      f.Twin (place.gap t) tail f' ∧ f.cells = m.work.line.cells ∧ f'.cells = m'.work.line.cells ∧
      Able tail f := by
  obtain ⟨c', front', twin, twins, cells'⟩ := List.forall₂_cons_left_iff.1 works.twins
  obtain ⟨f, whole, choice, focus, picked⟩ := base.sane.work.picked works.cells
  obtain ⟨f', whole', choice', focus', picked'⟩ := base.sane'.work.picked cells'
  rw [twin.kind] at picked'
  -- Where a brace follows, the line is a header and the token is in it.
  have header : tail ≠ [] → c.token.kind.isScopeBracket = false ∧
      (f.Chosen → ∃ after, f.after = after ++ tail ∧ f.InHeader) := by
    intro more
    obtain ⟨-, ⟨finished, -⟩ | ⟨t', -, doing⟩⟩ := nested
    · rw [running] at finished
      cases finished
    · cases works.trails with
      | none => exact absurd rfl more
      | brace _ kind =>
          obtain ⟨first, inHeader⟩ := doing.inHeader base.balanced works.cells kind (by simp)
          exact ⟨first c (by rw [works.cells]; rfl), inHeader f whole⟩
  suffices both : f.Twin (place.gap t) tail f' ∧ (tail ≠ [] → f.InHeader) from
    ⟨f, f', choice, focus, choice', focus', both.1, whole, whole',
      able_of_sane base.sane structured jumpless whole both.2⟩
  rcases picked with ⟨bracket, rfl⟩ | ⟨bracket, chosen⟩
  · rcases picked' with ⟨-, rfl⟩ | ⟨other, -⟩
    · refine ⟨⟨.nil, twin, front, rfl, twins⟩, fun more => ?_⟩
      rw [(header more).1] at bracket
      cases bracket
    · rw [bracket] at other
      cases other
  · rcases picked' with ⟨other, -⟩ | ⟨-, chosen'⟩
    · rw [bracket] at other
      cases other
    · obtain ⟨after, split, inHeader⟩ : ∃ after, f.after = after ++ tail ∧
        (tail ≠ [] → f.InHeader) := by
        by_cases more : tail = []
        · exact ⟨f.after, by simp [more], absurd more⟩
        · obtain ⟨after, split, inHeader⟩ := (header more).2 chosen
          exact ⟨after, split, fun _ => inHeader⟩
      have cells : c :: front = f.before.reverse ++ f.cell :: after := by
        have same := whole.trans works.cells
        rw [Focus.cells, split, ← List.cons_append, ← List.append_assoc] at same
        exact (List.append_cancel_right same).symm
      have all := works.twins
      rw [cells] at all
      obtain ⟨before', d', after', cells', onLeft, twinD, onRight⟩ := all.split
      have twinF : f.Twin (place.gap t) tail ⟨before'.reverse, d', after'⟩ :=
        ⟨by simpa using onLeft.reverse, twinD, after, split, onRight⟩
      have same : f' = ⟨before'.reverse, d', after'⟩ :=
        Line.chosen_unique (by rw [whole', cells', Focus.cells, List.reverse_reverse]) chosen'
          (twinF.chosen chosen)
      exact ⟨same ▸ twinF, inHeader⟩

section

variable (frames : place.Frames m m') {r : Ref} (gap : place.gap t = some r)
    (index : m.work.index = t)
  (index' : m'.work.index = place.index t + 1) (aim : m.work.purpose = .statement)
  (aim' : m'.work.purpose = .statement)

include frames gap index index' aim aim'

theorem Frames.onBrace {c c' : Cell} (cells : m.work.line.cells = [c])
    (cells' : m'.work.line.cells = [c']) (kind : c.token.kind = .openBrace)
    (kind' : c'.token.kind = .openBrace) :
    place.Keeps (Action.act ⟨[], c, []⟩) m (Action.act ⟨[], c', []⟩) m' := by
  simp only [Action.act, Action.perform, kind, kind']
  refine .next rfl rfl (.next rfl rfl (.next rfl rfl ?_))
  refine .next (Machine.outcome_remove_alone (f := ⟨[], c, []⟩) cells.symm rfl rfl)
    (Machine.outcome_remove_alone (f := ⟨[], c', []⟩) cells'.symm rfl rfl) (.ok rfl rfl ?_)
  exact { frames with
    symbols := congrArg Symbols.push frames.symbols
    work := fun _ => .brace gap index index' aim aim' (.inl ⟨rfl, rfl⟩) }

theorem Frames.afterBrace : place.Keeps (Action.conclude none) m (Action.conclude none) m' := by
  unfold Action.conclude
  refine .next rfl rfl ?_
  rw [aim, aim', index, index']
  have next := frames.goToLine (t + 1)
  rw [place.index_succ_gap gap] at next
  exact next

end

theorem Placed.step {stack : List Scope} (placed : place.Placed m m')
    (base : Grounded p p' n n' m m')
    (nested : m.Nested p stack) (structured : p.BlockStructured) (jumpless : p.GotoFree) :
    place.Keeps Action.step m Action.step m' := by
  have ready : Grounded p p' n n' { m with work := { m.work with selected := none } }
      { m' with work := { m'.work with selected := none } } :=
    { base with
      sane := base.sane.withWork base.sane.work.unselect base.sane.nextRef_le
      sane' := base.sane'.withWork base.sane'.work.unselect base.sane'.nextRef_le }
  have finished' := placed.finished
  cases running : m.finished with
  | true =>
      rw [running] at finished'
      exact .of_eq (Action.step_of_finished running) (Action.step_of_finished finished')
        (.ok rfl rfl placed)
  | false =>
      rw [running] at finished'
      cases placed.work running with
      | @line t front tail works =>
          cases front with
          | nil =>
              obtain rfl : tail = [] := by
                by_contra more
                exact works.filled more rfl
              have empty' := List.forall₂_nil_left_iff.1 works.twins
              refine .of_eq (Action.step_of_empty running works.cells)
                (Action.step_of_empty finished' empty') ?_
              exact placed.conclude base.balanced base.loaded' works .none
          | cons c front =>
              obtain ⟨f, f', choice, focus, choice', focus', twin, whole, whole', able⟩ :=
                works.picked base nested running structured jumpless
              have acts : place.Acts t tail f f' { m with work := { m.work with selected := none } }
                  { m' with work := { m'.work with selected := none } } :=
                ⟨placed.withWork _ _, { works.toOnLine with }, twin, whole, whole',
                  base.sane.work.sound, base.sane'.work.sound⟩
              exact .of_eq (Action.step_eq_act running choice focus)
                (Action.step_eq_act finished' choice' focus') (acts.act ready able)
      | @brace t r gap index index' aim aim' cells =>
          rcases cells with ⟨empty, empty'⟩ | ⟨c, c', cells, cells', kind, kind'⟩
          · refine .of_eq (Action.step_of_empty running empty)
              (Action.step_of_empty finished' empty') ?_
            exact placed.afterBrace gap index index' aim aim'
          · obtain ⟨choice, focus⟩ := base.sane.work.picked_brace cells kind
            obtain ⟨choice', focus'⟩ := base.sane'.work.picked_brace cells' kind'
            have frames := placed.withWork { m.work with selected := none }
              { m'.work with selected := none }
            exact .of_eq (Action.step_eq_act running choice focus)
              (Action.step_eq_act finished' choice' focus')
              (frames.onBrace gap index index' aim aim' cells cells' kind kind')

end Placement

end LineScript
