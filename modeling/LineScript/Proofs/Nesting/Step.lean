import LineScript.Proofs.Nesting.Blocks
import LineScript.Proofs.Nesting.Jumps

/-!
# Steps of nested machines

A step of a nested machine leads to a nested one.  It opens and closes scopes of the running
function, or it begins a call, or it ends one.
-/

namespace LineScript

open Scope

namespace Machine

inductive Steps (m : Machine) (p : Program) (stack : List Scope) (m' : Machine) : Prop where
  | moves (moves : m.Moves p stack m')
  | enters (c : Call) (enters : m.Enters p stack c m')
  | returns (c : Call) (rest : List Scope) (returns : m.Returns p stack c rest m')

variable {m m' : Machine} {p : Program} {stack : List Scope} {t : Nat}
  {pre mid post : List Cell}

/-!
## Completing a line
-/

theorem conclude_moves (balanced : p.Balanced) (structured : p.BlockStructured)
    (stands : m.Stands p stack) (running : m.finished = false) (nest : Nest p stack t)
    (slot : Slot p stack t m.work.index m.work.purpose [] []) {result : Option Token}
    (ran : (Action.conclude result).outcome m = .ok ((), m')) : m.Moves p stack m' := by
  obtain ⟨m₀, m₁, same, ran₁⟩ := Action.outcome_bind_ok ran
  cases same
  generalize index : m.work.index = i at slot ran₁
  generalize aim : m.work.purpose = purpose at slot ran₁
  cases slot with
  | statement settled level =>
      simp only at ran₁
      split at ran₁
      · exact obeySignal_moves balanced structured stands running nest ran₁
      · exact (stands.toLine balanced running structured settled
          (nest.congr settled level) ran₁).moves
  | @header l rest _ top body other =>
      subst top
      cases purpose with
      | statement => exact absurd rfl other
      | loopInit => exact testLoop_moves balanced structured stands running nest ran₁
      | loopStep => exact testLoop_moves balanced structured stands running nest ran₁
      | loopCondition => exact decideLoop_moves balanced structured stands running nest ran₁

/-!
## Reducing
-/

/-- After a reduction the rest of the cells is still to be reduced, or the line is over. -/
theorem Rewrites.moves (rewrites : m.Rewrites pre mid post m') (stands : m.Stands p stack)
    (running : m.finished = false) (nest : Nest p stack t)
    (reduces : m.work.Reduces p stack t pre mid post) : m.Moves p stack m' := by
  have symbols := rewrites.symbols
  have stands' : m'.Stands p stack := by
    rw [rewrites.rest]
    exact ⟨stands.program, stands.functions, stands.mirrors.same symbols.depth rfl rfl rfl⟩
  have work : m'.work = { m.work with line := m'.work.line } := congrArg Machine.work rewrites.rest
  have running' : m'.finished = false := (congrArg Machine.finished rewrites.rest).trans running
  refine ⟨stack, ⟨stands', .inr ?_⟩, shifts_of_grows symbols stack⟩
  have slot : Slot p stack t m'.work.index m'.work.purpose pre post := by
    rw [work]
    exact reduces.slot
  have unselected : m'.work.selected = none := by
    rw [work]
    exact reduces.unselected
  have sound := rewrites.sound reduces.sound
  rcases rewrites.cells with ⟨new, cells, plain, free⟩ | ⟨empty, system⟩
  · exact ⟨t, nest, .reducing running'
      ⟨slot, cells, plain, fun more => free (reduces.free more), sound, unselected⟩⟩
  · -- The line was cleared, which no brace after it allows.
    have alone : post = [] := by
      cases post with
      | nil => rfl
      | cons d ds => exact absurd (reduces.free (by simp)) system
    subst alone
    generalize index : m'.work.index = i at slot
    generalize aim : m'.work.purpose = purpose at slot
    have next (settled : Settled stack) (level : p.openAt (t + 1) = p.openAt t) (here : i = t)
        (statement : purpose = .statement) : ∃ t, Nest p stack t ∧ m'.Doing p stack t :=
      ⟨t + 1, nest.congr settled level,
        .done running' empty (aim.trans statement) (by rw [index, here]) settled⟩
    cases slot with
    | statement settled level => exact next settled level rfl rfl
    | giveBack settled level _ => exact next settled level rfl rfl
    | branch settled _ _ _ _ tail =>
        rcases tail with ⟨-, level⟩ | ⟨brace, more, -⟩
        · exact next settled level rfl rfl
        · cases more
    | header top body other =>
        have nothing : m'.work.Reduces p stack t [] [] [] := by
          refine ⟨?_, empty, plain_nil, by simp, sound, unselected⟩
          rw [index, aim]
          exact .header top body other
        exact ⟨t, nest, .reducing running' nothing⟩

theorem Slot.not_after {index : Nat} {purpose : Purpose} {f : Focus}
    (slot : Slot p stack t index purpose pre post) (chosen : f.Chosen) {more : List Cell}
    (inside : post = more ++ f.cell :: f.after) (before : f.before.reverse = pre ++ mid ++ more) :
    False := by
  cases slot with
  | statement => simp at inside
  | giveBack => simp at inside
  | @branch line _ _ _ c _ _ _ kind fresh tail =>
      rcases tail with ⟨rfl, -⟩ | ⟨brace, rfl, kind', fresh'⟩
      · simp at inside
      · have same : brace = f.cell := by
          cases more with
          | nil => exact (List.cons.inj inside).1
          | cons d more => simp at inside
        have lower := chosen.left c (by rw [← List.mem_reverse, before]; simp)
        rw [← same, fresh.1, fresh'.1, kind, kind'] at lower
        exact absurd lower (by decide)
  | header => simp at inside

/-- The keyword before the cells acts when these are reduced. -/
theorem lead_steps (balanced : p.Balanced) (structured : p.BlockStructured) {f : Focus}
    (stands : m.Stands p stack) (running : m.finished = false) (nest : Nest p stack t)
    (slot : Slot p stack t m.work.index m.work.purpose pre post) {more : List Cell}
    (inside : pre = f.before.reverse ++ f.cell :: more)
    (ran : (Action.perform f).outcome m = .ok ((), m')) : m.Steps p stack m' := by
  have only {c : Cell} (one : [c] = f.before.reverse ++ f.cell :: more) : f.cell = c := by
    cases before : f.before.reverse with
    | nil =>
        rw [before] at one
        exact (List.cons.inj one).1.symm
    | cons d ds =>
        rw [before] at one
        simp at one
  generalize index : m.work.index = i at slot
  generalize m.work.purpose = purpose at slot
  cases slot with
  | statement => simp at inside
  | giveBack _ _ kind =>
      have cell := only inside
      rw [Action.perform, cell, kind] at ran
      obtain ⟨c, rest, returns⟩ := giveBack_returns stands running nest ran
      exact .returns c rest returns
  | branch settled found cells kind _ _ =>
      have cell := only inside
      rw [Action.perform, cell, kind] at ran
      exact .moves (branch_lands balanced structured stands running settled nest index found cells
        kind cell ran).moves
  | header => simp at inside

theorem reducing_steps (balanced : p.Balanced) (structured : p.BlockStructured)
    (stands : m.Stands p stack) (running : m.finished = false) (nest : Nest p stack t)
    (reduces : m.work.Reduces p stack t pre mid post) (next : m.next = .ok m') :
    m.Steps p stack m' := by
  have cells := reduces.cells
  cases first : m.work.line.cells with
  | nil =>
      rw [first] at cells
      have none := cells.symm
      simp only [List.append_eq_nil_iff] at none
      have slot := reduces.slot
      rw [none.1.1, none.2] at slot
      exact .moves (conclude_moves balanced structured stands running nest slot
        (outcome_of_next (next_empty running first) next))
  | cons c rest =>
      have noBrace : ∀ d, m.work.line.cells.head? = some d →
        d.token.kind.isScopeBracket = false := by
        intro d hd
        rw [cells] at hd
        exact reduces.slot.noBrace reduces.plain hd
      obtain ⟨f, whole, chosen, -⟩ := Line.exists_chosen (l := m.work.line) (c := c)
        (by rw [first]; rfl)
        (noBrace c (by rw [first]; rfl))
      have ran := outcome_of_next
        (next_chosen ⟨running, reduces.unselected, reduces.sound.distinct⟩
          whole noBrace chosen) next
      obtain ⟨firmPre, firmPost⟩ := reduces.slot.firm
      rcases act_ok whole ran with ⟨noBefore, noAfter, inert, ran⟩ | ⟨-, ran⟩
      · -- One inert token is left of the line.
        have plain := TokenKind.isPlain_of_isInert inert
        have one : [f.cell] = pre ++ mid ++ post := by
          rw [← cells, ← whole, Focus.cells, noBefore, noAfter]
          rfl
        have here : f.cell ∈ mid := by
          have member : f.cell ∈ pre ++ mid ++ post := by
            rw [← one]
            simp
          simp only [List.mem_append] at member
          rcases member with (member | member) | member
          · rw [firmPre _ member] at plain
            cases plain
          · exact member
          · rw [firmPost _ member] at plain
            cases plain
        have size := congrArg List.length one
        have filled := List.length_pos_of_mem here
        simp only [List.length_append, List.length_singleton] at size
        have slot := reduces.slot
        rw [List.eq_nil_of_length_eq_zero (show pre.length = 0 by omega),
          List.eq_nil_of_length_eq_zero (show post.length = 0 by omega)] at slot
        have moves := conclude_moves balanced structured (stands.withWork _) (by exact running) nest
          (by exact slot) ran
        exact .moves moves
      · rcases f.cases_parts (whole.trans cells) with ⟨more, inside, after⟩ |
          ⟨left, right, rfl, before, after⟩ | ⟨more, inside, before⟩
        · exact lead_steps balanced structured stands running nest reduces.slot inside ran
        · have inside : f.Inside pre left right post :=
            ⟨before, after, reduces.plain, firmPre, firmPost⟩
          rcases Action.perform_rewrites inside whole ran with rewrites |
            ⟨kind, args, close, rest, matched, ran⟩
          · exact .moves (rewrites.moves stands running nest reduces)
          · obtain ⟨c, enters⟩ := beginCall_enters balanced structured stands
              running nest reduces inside
              whole kind matched ran
            exact .enters c enters
        · exact absurd (Slot.not_after reduces.slot chosen inside before) id

/-!
## All states
-/

theorem control_step (balanced : p.Balanced) {line : Line} {before after : List Cell} {c : Cell}
    {k : Keyword} (found : p.lines[t]? = some line) (cells : line.cells = before ++ c :: after)
    (works : m.WorksOn t (c :: after) .statement) (kind : c.token.kind = .keyword k)
    (first : k.priority = Priority.control) (next : m.next = .ok m') :
    (Action.applyKeyword ⟨[], c, after⟩ k).outcome m = .ok ((), m') := by
  have fresh := (balanced.loaded.line found).fresh
  have ran := outcome_of_next (next_control works
    (fun d hd => fresh d (by rw [cells]; exact List.mem_append_right _ hd))
    (by rw [kind]; exact first) (by rw [kind]; rfl)) next
  rcases act_ok (by exact works.holds.symm) ran with ⟨-, -, inert, -⟩ | ⟨-, ran⟩
  · rw [kind] at inert
    cases inert
  · rwa [Action.perform, kind] at ran

theorem markSignal_moves (balanced : p.Balanced) (stands : m.Stands p stack) (nest : Nest p stack t)
    {line : Line} {before tail : List Cell} {c : Cell} {k : Keyword} {signal : Signal} {f : Focus}
    (works : m.WorksOn t (c :: (mid ++ tail)) .statement)
    (bare : c.token.kind.isScopeBracket = false) (heads : k.headsBlock = false)
    (found : p.lines[t]? = some line) (cells : line.cells = before ++ c :: (mid ++ tail))
    (plain : Plain mid) (after : BraceAfter k mid tail) (settled : Settled stack)
    (ran : (Action.markSignal f signal).outcome m = .ok ((), m')) : m.Moves p stack m' := by
  have level : p.openAt (t + 1) = p.openAt t := by
    cases after with
    | none =>
        refine balanced.openAt_level found cells bare fun d hd => ne_openBrace_of_isPlain ?_
        exact plain d (by simpa using hd)
    | brace _ headsBlock _ =>
        rw [heads] at headsBlock
        cases headsBlock
  have slot : Slot p stack t m.work.index m.work.purpose [] [] := by
    rw [works.index, works.aim]
    exact .statement settled level
  have unselected := works.unselected (by rintro d ⟨⟩; exact bare)
  have empty : m.work.line.clear.Sound := ⟨.nil, by simp [Line.clear, Line.refs, Line.withCells]⟩
  simp only [Action.markSignal, Action.outcome_modify, Except.ok.injEq, Prod.mk.injEq,
    true_and] at ran
  rw [← ran]
  generalize htoken : Token.new (.signal signal) m.nextId f.cell.token.line = token
  have plainToken : token.kind.isPlain = true := by
    rw [← htoken]
    rfl
  have alone : (m.work.line.clear.append token).cells =
      [] ++ [⟨m.work.line.nextRef, token⟩] ++ [] := rfl
  refine ⟨stack, ⟨⟨stands.program, stands.functions, stands.mirrors.same rfl rfl rfl rfl⟩,
    .inr ⟨t, nest, .reducing works.running ⟨slot, alone, ?_, by simp, empty.append _, unselected⟩⟩⟩,
    shifts_of_eq rfl stack⟩
  exact plain_cons.2 ⟨plainToken, plain_nil⟩

theorem keyword_moves (balanced : p.Balanced) (structured : p.BlockStructured)
    (stands : m.Stands p stack) (nest : Nest p stack t) (able : m.JumpsWell) {line : Line}
    {before tail : List Cell} {c : Cell} {k : Keyword}
    (works : m.WorksOn t (c :: (mid ++ tail)) .statement) (kind : c.token.kind = .keyword k)
    (first : k.priority = Priority.control) (notElse : k ≠ .else) (notBack : k ≠ .goback)
    (found : p.lines[t]? = some line) (cells : line.cells = before ++ c :: (mid ++ tail))
    (plain : Plain mid) (after : BraceAfter k mid tail) (settled : Settled stack)
    (ran : (Action.applyKeyword ⟨[], c, mid ++ tail⟩ k).outcome m = .ok ((), m')) :
    m.Moves p stack m' := by
  have running := works.running
  have index := works.index
  cases k with
  | «while» =>
      exact startWhile_moves balanced structured stands running settled index nest found cells plain
        after (by rw [kind]; rfl) ran
  | «for» =>
      exact startFor_moves balanced structured stands running settled index nest found cells plain
        after ran
  | goto =>
      exact jumpToLabel_moves balanced structured stands running settled nest index works.holds kind
        able ran
  | define =>
      exact (define_lands balanced structured stands running settled nest index found cells kind rfl
        ran).moves
  | «break» =>
      exact markSignal_moves balanced stands nest works
        (by rw [kind]; rfl) rfl found cells plain after
        settled ran
  | «continue» =>
      exact markSignal_moves balanced stands nest works
        (by rw [kind]; rfl) rfl found cells plain after
        settled ran
  | «if» => cases first
  | «return» => cases first
  | system => cases first
  | «else» => exact absurd rfl notElse
  | goback => exact absurd rfl notBack

theorem Nested.steps (nested : m.Nested p stack) (balanced : p.Balanced)
    (structured : p.BlockStructured) (able : m.JumpsWell) (next : m.next = .ok m') :
    m.Steps p stack m' := by
  obtain ⟨stands, ⟨finished, rfl⟩ | ⟨t, nest, doing⟩⟩ := nested
  · rw [next_finished finished] at next
    cases next
    exact .moves ⟨[], ⟨stands, .inl ⟨finished, rfl⟩⟩, shifts_of_eq rfl _⟩
  cases doing with
  | done running empty aim here settled =>
      have ran := outcome_of_next (next_empty running empty) next
      rw [outcome_conclude_statement aim rfl, ← here] at ran
      exact .moves (stands.toLine balanced running structured settled nest ran).moves
  | brace works kind brace =>
      have ran := outcome_of_next (next_first works (.inl (by rw [kind]; rfl))) next
      rcases act_ok (by exact works.holds.symm) ran with ⟨-, -, inert, -⟩ | ⟨-, ran⟩
      · rw [kind] at inert
        cases inert
      · rw [Action.perform, kind] at ran
        have idle := stands.withWork { m.work with selected := none }
        have moves := openBlock_moves balanced idle works.running nest works.index works.aim brace
          works.holds ran
        exact .moves moves
  | closing works kind found cells settled =>
      have ran := outcome_of_next (next_first works (.inl (by rw [kind]; rfl))) next
      rcases act_ok (by exact works.holds.symm) ran with ⟨-, -, inert, -⟩ | ⟨-, ran⟩
      · rw [kind] at inert
        cases inert
      · rw [Action.perform, kind] at ran
        have idle := stands.withWork { m.work with selected := none }
        rcases closeBlock_steps balanced structured idle works.running settled nest works.index
          works.aim found cells kind works.holds ran with moves | ⟨c, rest, returns⟩
        · exact .moves moves
        · exact .returns c rest ⟨returns.stack, returns.nested, returns.symbols, returns.answered⟩
  | passing works kind found cells settled =>
      have ran := control_step balanced found cells works kind rfl next
      exact .moves (passElse_lands balanced structured stands works.running settled nest works.index
        found cells kind rfl ran).moves
  | keyword works kind first notElse notBack found cells plain after settled =>
      have ran := control_step balanced found cells works kind first next
      exact .moves (keyword_moves balanced structured stands nest able works
        kind first notElse notBack
        found cells plain after settled ran)
  | reducing running reduces =>
      exact reducing_steps balanced structured stands running nest reduces next

end Machine

end LineScript
