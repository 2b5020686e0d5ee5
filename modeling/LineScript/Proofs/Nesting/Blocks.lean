import LineScript.Proofs.Nesting.Calls
import LineScript.Proofs.Nesting.Loops

/-!
# Blocks of nested machines

A `{` in the flow of control opens the scope of a block.  A `}` closes the innermost scope; where
the innermost scope is that of a body of a loop or function, it ends an iteration or a call, and
only there.  Branches and definitions go to a line with the same open braces, or to the `{` of their
block.
-/

namespace LineScript

open Scope

namespace Machine

variable {m m' : Machine} {p : Program} {stack inner rest : List Scope} {t : Nat} {c : Cell}

theorem openBlock_moves (balanced : p.Balanced) (stands : m.Stands p stack)
    (running : m.finished = false) (nest : Nest p stack t) (index : m.work.index = t)
    (aim : m.work.purpose = .statement) (brace : p.BraceAt { line := t, token := c.ref })
    (holds : m.work.line.cells = [c])
    (ran : (Action.openBlock ⟨[], c, []⟩).outcome m = .ok ((), m')) : m.Moves p stack m' := by
  simp only [Action.openBlock, Action.outcome_bind, Action.outcome_get, Except.bind_ok,
    outcome_remove_alone (f := ⟨[], c, []⟩) holds.symm rfl rfl, outcome_newScope_block] at ran
  cases ran
  have opened : Nest p (.block { line := t, token := c.ref } :: stack) (t + 1) :=
    ⟨brace, by rw [brace.openAt_succ balanced]; rfl, nest⟩
  refine ⟨.block (m.positionOf c) :: stack, ⟨⟨stands.program, stands.functions, ?_⟩, ?_⟩,
    [], [.block (m.positionOf c)], stack, rfl, rfl, rfl, rfl, Symbols.keeps_push _ _⟩
  · exact stands.mirrors.openBlock _ (Symbols.depth_push _) rfl rfl rfl
  · rw [Machine.positionOf, index]
    exact .inr ⟨t + 1, opened, .done running rfl aim (by rw [← index]; rfl) (settled_block _ _)⟩

/-!
## The end of a block
-/

/-- The innermost loop ends at a `}` just if the innermost scope is that of its body. -/
theorem endsLoop_iff (balanced : p.Balanced) (mirrors : m.Mirrors stack) (nest : Nest p stack t)
    {line : Line} (found : p.lines[t]? = some line) (cells : line.cells = [c])
    (kind : c.token.kind = .closeBrace) :
    Action.endsLoop m t = true ↔ ∃ b l rest, stack = .block b :: .loop l :: rest := by
  obtain ⟨i, top⟩ := balanced.openAt_closing found cells kind
  constructor
  · intro ends
    unfold Action.endsLoop at ends
    split at ends
    · cases ends
    · rename_i l ls own
      simp only [Bool.and_eq_true, decide_eq_true_eq] at ends
      obtain ⟨inner, rest, rfl, only, below⟩ := nest.innermost_loop (mirrors.loops.symm.trans own)
        (by rw [ends.2, mirrors.calls])
      obtain ⟨close, last⟩ := below.1.block.ends balanced
      have body : i = l.body.opening.line := by
        have inside := last.inside
        rw [ends.1, top] at inside
        exact (List.cons.inj inside).1
      cases inner with
      | nil =>
          -- The line would be the one with the `{`.
          have here := nest.2.1
          have before : i < t := balanced.lt_of_mem_openAt (by simp [top])
          omega
      | cons s inner =>
          obtain ⟨b, rfl⟩ := only s (by simp)
          have here : b.line = i := by
            have first := nest.2.1
            rw [top] at first
            exact (Option.some.inj first).symm
          cases inner with
          | nil => exact ⟨b, l, rest, rfl⟩
          | cons s' inner =>
              have lower := nest.2.2.opening_lt balanced
                (fun s hs => only s (List.mem_cons_of_mem _ hs)) (by simp)
              omega
  · rintro ⟨b, l, rest, rfl⟩
    obtain ⟨-, first, at_l, here, -, calls, -⟩ := nest
    have top' : p.openAt t = l.body.opening.line :: p.openAt (t + 1) := by
      rw [top] at first ⊢
      rw [← here, ← Option.some.inj first]
    have last := at_l.block.closing_line balanced found cells kind top'
    have own : m.loops = l :: Scope.loops rest := mirrors.loops
    have called : m.calls = Scope.calls rest := mirrors.calls
    simp [Action.endsLoop, own, last, calls, called]

/-- The running function ends at a `}` just if the innermost scope is its own. -/
theorem endsCall_iff (balanced : p.Balanced) (nest : Nest p stack t) {line : Line} {call : Call}
    {calls : List Call} (own : Scope.calls stack = call :: calls) (settled : Settled stack)
    (found : p.lines[t]? = some line)
    (cells : line.cells = [c]) (kind : c.token.kind = .closeBrace) :
    call.function.body.closing.line = t ↔ ∃ rest, stack = .call call :: rest := by
  obtain ⟨i, top⟩ := balanced.openAt_closing found cells kind
  obtain ⟨inner, rest, t', rfl, free, below⟩ := nest.innermost_call own
  constructor
  · intro last
    obtain ⟨close, ends⟩ := (below.1.block balanced).ends balanced
    have body : i = call.function.body.opening.line := by
      have inside := ends.inside
      rw [last, top] at inside
      exact (List.cons.inj inside).1
    cases inner with
    | nil => exact ⟨rest, rfl⟩
    | cons s inner =>
        cases s with
        | block b =>
            -- The brace of the function is open at that of the block, so these are two.
            have lower := balanced.lt_of_mem_openAt (nest.2.2.mem_openAt balanced free rfl)
            have first := nest.2.1
            rw [top] at first
            have := Option.some.inj first
            omega
        | loop l =>
            exact absurd rfl (settled l _)
        | call c => cases free
  · rintro ⟨rest', same⟩
    rw [same] at nest
    refine (nest.1.block balanced).closing_line balanced found cells kind
      (List.head?_eq_some_iff.1 ?_).choose_spec
    exact nest.2.1

theorem outcome_endCall_pop {call : Call} {calls : List Call} {value : Value} {n : Nat}
    {work : Work} (own : m.calls = call :: calls) (lt : call.scopes < m.symbols.depth) :
    (Action.endCall value n).outcome { m with work, symbols := m.symbols.pop } =
      (Action.endCall value n).outcome { m with work } := by
  simp only [Action.endCall, Action.outcome_bind, Action.outcome_get, Except.bind_ok, own,
    Action.outcome_modify]
  split
  · rfl
  · simp only [Action.outcome_bind, Action.outcome_modify, Action.outcome_emit, Except.bind_ok,
      Symbols.unwind_of_lt lt]

theorem closeBlock_steps (balanced : p.Balanced) (structured : p.BlockStructured)
    (stands : m.Stands p stack) (running : m.finished = false) (settled : Settled stack)
    (nest : Nest p stack t) (index : m.work.index = t) (aim : m.work.purpose = .statement)
    {line : Line} (found : p.lines[t]? = some line) (cells : line.cells = [c])
    (kind : c.token.kind = .closeBrace) (holds : m.work.line.cells = [c])
    (ran : (Action.closeBlock ⟨[], c, []⟩).outcome m = .ok ((), m')) :
    m.Moves p stack m' ∨ ∃ call rest, m.Returns p stack call rest m' := by
  obtain ⟨i, top⟩ := balanced.openAt_closing found cells kind
  have loopEnds := endsLoop_iff balanced stands.mirrors nest found cells kind
  simp only [Action.closeBlock, Action.outcome_bind, Action.outcome_get, Except.bind_ok,
    outcome_remove_alone (f := ⟨[], c, []⟩) holds.symm rfl rfl, Action.outcome_setSymbols,
    Action.outcome_emit, index] at ran
  cases stack with
  | nil =>
      rw [nest] at top
      cases top
  | cons s rest =>
      cases s with
      | block b =>
          -- All that the block leaves behind.
          have popped : ∀ work, ({ m with work, symbols := m.symbols.pop } :
            Machine).Stands p rest := by
            intro work
            have mirrors : m.Mirrors ([.block b] ++ rest) := stands.mirrors
            refine ⟨stands.program, stands.functions, mirrors.shrink ?_ ?_ ?_ rfl⟩
            · rw [Symbols.depth_pop, stands.mirrors.depth]
              rfl
            · exact stands.mirrors.loops
            · exact stands.mirrors.calls
          have shifts : ∀ work, m.Shifts (.block b :: rest)
              { m with work, symbols := m.symbols.pop } rest := by
            intro work
            refine ⟨[.block b], [], rest, rfl, rfl, rfl, rfl, Symbols.keeps_pop ?_⟩
            rw [stands.mirrors.depth]
            exact Nat.lt_succ_self _
          obtain ⟨brace, first, below⟩ := id nest
          have line : i = b.line := by
            rw [top] at first
            exact Option.some.inj first
          left
          by_cases ends : Action.endsLoop m t = true
          · obtain ⟨b', l, rest', same⟩ := loopEnds.1 ends
            cases same
            rw [if_pos ends] at ran
            have moves := nextIteration_moves balanced structured
              (show Machine.Stands _ p ([] ++ .loop l :: rest') from popped _) running (by simp)
              (below.2.1 ▸ below) ran
            exact moves.after (shifts _)
          · rw [if_neg ends] at ran
            have settled' : Settled rest := by
              rintro l rest' rfl
              exact ends (loopEnds.2 ⟨b, l, rest', rfl⟩)
            have after : Nest p rest (t + 1) := by
              refine below.congr settled' ?_
              rw [balanced.openAt_head top, line]
            have stays : ∀ work : Work, work.line.cells = [] → work.purpose = .statement →
                work.index = t → m.Moves p (.block b :: rest)
                  { m with work, symbols := m.symbols.pop } := by
              intro work empty aim index
              exact ⟨rest, ⟨popped work, .inr
                ⟨t + 1, after, .done running empty aim (by rw [← index])
                settled'⟩⟩, shifts work⟩
            split at ran
            · cases ran
              exact stays _ rfl aim index
            · rename_i call calls own
              split at ran
              · rename_i last
                obtain ⟨rest', same⟩ := (endsCall_iff balanced nest
                  (stands.mirrors.calls.symm.trans own) settled found cells kind).1 last
                cases same
              · cases ran
                exact stays _ rfl aim index
      | loop l => exact absurd rfl (settled l rest)
      | call call =>
          have goesOn : ¬ Action.endsLoop m t = true := by
            intro ends
            obtain ⟨b, l, rest', same⟩ := loopEnds.1 ends
            cases same
          have own : m.calls = call :: Scope.calls rest := stands.mirrors.calls
          have last : call.function.body.closing.line = t :=
            (endsCall_iff balanced nest rfl settled found cells kind).2 ⟨rest, rfl⟩
          rw [if_neg goesOn] at ran
          simp only [own, last, if_true] at ran
          split at ran
          · cases ran
          · have ran : (Action.endCall .null c.token.line).outcome
                { m with
                  work := (m.onLine [] 0).work
                  symbols := m.symbols.pop } = .ok ((), m') := ran
            rw [outcome_endCall_pop own ?_] at ran
            · have standing : ∀ work, ({ m with work } : Machine).Stands p
                ([] ++ .call call :: rest) :=
                fun work => stands.withWork work
              have returns := endCall_returns (standing _) (by exact running) rfl nest ran
              exact .inr ⟨call, rest, returns.stack, returns.nested, returns.symbols,
                returns.answered⟩
            · rw [stands.mirrors.depth, nest.2.2.1]
              exact Nat.lt_succ_self _

/-!
## Branches
-/

/-- Behind the block of an `if`, past an `else`. -/
theorem elseBranch_lands (balanced : p.Balanced) (structured : p.BlockStructured)
    (stands : m.Stands p stack) (running : m.finished = false) (settled : Settled stack)
    {e : Extent}
    (block : p.IsBlock e) (nest : Nest p stack e.opening.line) {target : Option Position}
    (looked : Action.elseBranch p e.closing = .ok target)
    (ran : (Action.goTo target).outcome m = .ok ((), m')) : m.Lands p stack m' := by
  obtain ⟨close, ends⟩ := block.ends balanced
  have after : Nest p stack (e.closing.line + 1) := nest.congr settled ends.outside
  simp only [Action.elseBranch, ends.following balanced.loaded, Except.bind_eq_bind,
    Except.bind_ok] at looked
  cases first : p.firstFrom? (e.closing.line + 1) with
  | none =>
      rw [first] at looked
      cases looked
      exact stands.toFirst balanced running structured settled after (by rw [first]; exact ran)
  | some pos =>
      rw [first] at looked
      have here := first
      rw [Program.firstFrom?_eq balanced.loaded] at here
      obtain ⟨line, found, head⟩ := Option.bind_eq_some_iff.1 here
      obtain ⟨d, hd, rfl⟩ := Option.map_eq_some_iff.1 head
      obtain ⟨rest, cells⟩ := List.head?_eq_some_iff.1 hd
      have loaded := balanced.loaded.line found
      have whole : line.cells = [] ++ d :: rest := cells
      have token : p.tokenAt { line := e.closing.line + 1, token := d.ref } = .ok d.token := by
        simp [Program.tokenAt, Program.lineAt_eq found, Line.get, loaded.focus [] whole]
      simp only [token, Except.bind_ok] at looked
      split at looked
      · rename_i other
        have bare : d.token.kind.isScopeBracket = false := by rw [other]; rfl
        cases rest with
        | nil =>
            -- The `else` is alone on its line.
            rw [Program.following_last balanced.loaded found [] whole] at looked
            cases looked
            have level := balanced.openAt_level found whole bare (by simp)
            exact stands.toFirst balanced running structured settled (after.congr settled level) ran
        | cons x rest =>
            have form := structured.form balanced (List.mem_of_getElem? found)
            rw [cells] at form
            have phrase : Phrase (x :: rest) := by
              cases form with
              | phrase _ _ noElse => exact absurd other (noElse d rfl)
              | otherwise _ phrase => exact phrase
            have onward : p.following { line := e.closing.line + 1, token := d.ref } =
                .ok (some { line := e.closing.line + 1, token := x.ref }) := by
              simp [Program.following, Program.lineAt_eq found, Line.next, loaded.focus [] whole,
                Focus.next?]
            rw [onward] at looked
            cases looked
            exact stands.toPhrase balanced running found [d] cells phrase settled after ran
      · cases looked
        exact stands.toFirst balanced running structured settled after (by rw [first]; exact ran)

/-- The value of the condition decides between the block and the way past it. -/
theorem takeBranch_lands (balanced : p.Balanced) (structured : p.BlockStructured)
    (stands : m.Stands p stack) (running : m.finished = false) (settled : Settled stack)
    (nest : Nest p stack t) (index : m.work.index = t) {line : Line} {before after : List Cell}
    (found : p.lines[t]? = some line) (cells : line.cells = before ++ c :: after)
    (kind : c.token.kind = .keyword .if) {f : Focus} (cell : f.cell = c) {operand : Cell}
    (ran : (Action.takeBranch f operand).outcome m = .ok ((), m')) : m.Lands p stack m' := by
  obtain ⟨v, m₁, hv, ran₁⟩ := Action.outcome_bind_ok ran
  obtain ⟨-, rfl⟩ := Action.valueOf_ok hv
  split at ran₁
  · obtain ⟨m₂, m₃, same, ran₂⟩ := Action.outcome_bind_ok ran₁
    cases same
    obtain ⟨b, m₄, hb, ran₃⟩ := Action.outcome_bind_ok ran₂
    obtain ⟨started, rfl⟩ := Action.ofExcept_ok hb
    rw [stands.program, Machine.positionOf, index, cell] at started
    have headed := Program.headedBy_of_blockStart balanced found cells (by rw [kind]; rfl) started
    have there : Nest p stack b.line := nest.congr settled headed.level
    obtain ⟨⟨⟩, m₅, same, ran₄⟩ := Action.outcome_bind_ok ran₃
    cases same
    split at ran₄
    · exact stands.toBrace balanced running headed.brace there ran₄
    · obtain ⟨close, m₆, hclose, ran₅⟩ := Action.outcome_bind_ok ran₄
      obtain ⟨ended, rfl⟩ := Action.ofExcept_ok hclose
      obtain ⟨target, m₇, htarget, ran₆⟩ := Action.outcome_bind_ok ran₅
      obtain ⟨looked, rfl⟩ := Action.ofFault_ok htarget
      rw [stands.program] at ended looked
      have block : p.IsBlock { opening := b, closing := close } := ⟨headed.brace, ended⟩
      exact elseBranch_lands balanced structured stands running settled block there looked ran₆
  · cases ran₁

theorem branch_lands (balanced : p.Balanced) (structured : p.BlockStructured)
    (stands : m.Stands p stack) (running : m.finished = false) (settled : Settled stack)
    (nest : Nest p stack t) (index : m.work.index = t) {line : Line} {before after : List Cell}
    (found : p.lines[t]? = some line) (cells : line.cells = before ++ c :: after)
    (kind : c.token.kind = .keyword .if) {f : Focus} (cell : f.cell = c)
    (ran : (Action.branch f).outcome m = .ok ((), m')) : m.Lands p stack m' := by
  obtain ⟨operand, m₁, hoperand, ran₁⟩ := Action.outcome_bind_ok ran
  obtain ⟨-, -, rfl⟩ := Action.asOperand_ok hoperand
  split at ran₁
  · split at ran₁
    · cases ran₁
    · exact takeBranch_lands balanced structured stands running settled nest index found cells kind
        cell ran₁
  · exact takeBranch_lands balanced structured stands running settled nest index found cells kind
      cell ran₁

theorem passElse_lands (balanced : p.Balanced) (structured : p.BlockStructured)
    (stands : m.Stands p stack) (running : m.finished = false) (settled : Settled stack)
    (nest : Nest p stack t) (index : m.work.index = t) {line : Line} {before after : List Cell}
    (found : p.lines[t]? = some line) (cells : line.cells = before ++ c :: after)
    (kind : c.token.kind = .keyword .else) {f : Focus} (cell : f.cell = c)
    (ran : (Action.passElse f).outcome m = .ok ((), m')) : m.Lands p stack m' := by
  obtain ⟨m₀, m₁, same, ran₁⟩ := Action.outcome_bind_ok ran
  cases same
  obtain ⟨e, m₂, hblock, ran₂⟩ := Action.outcome_bind_ok ran₁
  obtain ⟨made, rfl⟩ := Action.ofExcept_ok hblock
  obtain ⟨target, m₃, htarget, ran₃⟩ := Action.outcome_bind_ok ran₂
  obtain ⟨follows, rfl⟩ := Action.ofFault_ok htarget
  rw [stands.program, Machine.positionOf, index, cell] at made
  obtain ⟨headed, block⟩ := Program.headedBy_of_blockAfter balanced found cells
    (by rw [kind]; rfl) made
  rw [stands.program] at follows
  exact stands.pastBlock balanced running structured settled block
    (nest.congr settled headed.level) follows ran₃

theorem functionHeader?_eq {cells rest : List Cell} {opening : Cell} {type : ValueType}
    {name : String} (header : Action.functionHeader? cells = some (type, name, opening, rest)) :
    opening.token.kind = .bracket .call .opening ∧
      ∃ ret word, cells = ret :: word :: opening :: rest := by
  unfold Action.functionHeader? at header
  split at header
  · rename_i ret word opening' rest'
    split at header
    · rename_i kind
      simp only [Option.some.injEq, Prod.mk.injEq] at header
      obtain ⟨-, -, rfl, rfl⟩ := header
      exact ⟨kind, ret, word, rfl⟩
    · cases header
  · cases header

theorem mem_register {fs fs' : Functions} {f g : Function} (registered : fs.register g = .ok fs')
    (member : f ∈ fs'.all) : f ∈ fs.all ∨ f = g := by
  unfold Functions.register at registered
  split at registered
  · cases registered
  · cases registered
    simpa using member

/-- A definition adds a function of the program. -/
theorem define_lands (balanced : p.Balanced) (structured : p.BlockStructured)
    (stands : m.Stands p stack) (running : m.finished = false) (settled : Settled stack)
    (nest : Nest p stack t) (index : m.work.index = t) {line : Line} {before after : List Cell}
    (found : p.lines[t]? = some line) (cells : line.cells = before ++ c :: after)
    (kind : c.token.kind = .keyword .define) {f : Focus} (cell : f.cell = c)
    (ran : (Action.define f).outcome m = .ok ((), m')) : m.Lands p stack m' := by
  have loaded := balanced.loaded.line found
  obtain ⟨m₀, m₁, same, ran₁⟩ := Action.outcome_bind_ok ran
  cases same
  obtain ⟨line', m₂, hline, ran₂⟩ := Action.outcome_bind_ok ran₁
  obtain ⟨lined, rfl⟩ := Action.ofFault_ok hline
  rw [stands.program, index, Program.lineAt_eq found] at lined
  cases lined
  obtain ⟨start, m₃, hstart, ran₃⟩ := Action.outcome_bind_ok ran₂
  obtain ⟨started, rfl⟩ := Action.ofFault_ok hstart
  rw [cell, loaded.focus before cells] at started
  cases started
  split at ran₃
  · cases ran₃
  rename_i returns name opening rest header
  obtain ⟨kindOpening, ret, word, same⟩ := functionHeader?_eq header
  rw [Line.enclosed_eq kindOpening, Action.ofFault_ok_bind] at ran₃
  split at ran₃
  · cases ran₃
  · rename_i args close more split
    have bare : close.token.kind.isScopeBracket = false := by
      rw [Action.kind_splitClose? split]
      rfl
    have cells' : line.cells =
        before ++ c :: ((ret :: word :: opening :: args) ++ close :: more) := by
      rw [cells, show after = _ from same, ← Line.splitClose?_append split]
      rfl
    obtain ⟨parameters, m₄, hparams, ran₄⟩ := Action.outcome_bind_ok ran₃
    obtain ⟨-, rfl⟩ := Action.ofCause_ok hparams
    obtain ⟨body, m₅, hbody, ran₅⟩ := Action.outcome_bind_ok ran₄
    obtain ⟨made, rfl⟩ := Action.ofExcept_ok hbody
    rw [stands.program, index] at made
    have made' := Program.blockAfter_skip balanced found cells' bare made
    have headed := (Program.headedBy_of_blockAfter balanced found cells'
      (by rw [kind]; rfl) made').1
    have isBody : p.FunctionBody body := ⟨t, line, c, found, by simp [cells], kind, made'⟩
    obtain ⟨⟨⟩, m₆, hemit, ran₆⟩ := Action.outcome_bind_ok ran₅
    cases hemit
    split at ran₆
    · cases ran₆
    · rename_i functions registered
      obtain ⟨⟨⟩, m₇, hset, ran₇⟩ := Action.outcome_bind_ok ran₆
      cases hset
      obtain ⟨target, m₈, htarget, ran₈⟩ := Action.outcome_bind_ok ran₇
      obtain ⟨follows, rfl⟩ := Action.ofFault_ok htarget
      have known : ∀ f ∈ functions.all, p.FunctionBody f.body := by
        intro f member
        rcases mem_register registered member with old | rfl
        · exact stands.functions f old
        · exact isBody
      have stands' : ({ m₅ with functions } : Machine).Stands p stack :=
        ⟨stands.program, known, stands.mirrors.same rfl rfl rfl rfl⟩
      rw [stands.program] at follows
      have lands := stands'.pastBlock balanced (by exact running) structured settled
        (isBody.block balanced) (nest.congr settled headed.level) follows ran₈
      exact ⟨lands.1, lands.2⟩

end Machine

end LineScript
