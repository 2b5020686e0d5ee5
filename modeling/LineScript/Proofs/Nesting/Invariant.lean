import LineScript.Proofs.Nesting.Stack

/-!
# Nested machines

`Machine.Nested` is the invariant of a run: one stack of scopes mirrors all stacks of the machine,
and it nests around the line that the machine works on.  `Machine.Doing` tells the states in which a
machine can be there.

`Machine.Shifts` says how the stack changes while no call begins or ends: some scopes on top of it
are closed and others are opened, all of them of the running function, and the variables below are
kept.
-/

namespace LineScript

open Scope

namespace Machine

/-- What a machine is about to do inside of some scopes, at a line. -/
inductive Doing (m : Machine) (p : Program) (stack : List Scope) (t : Nat) : Prop where
  /-- Nothing is left of the line before. -/
  | done (running : m.finished = false) (empty : m.work.line.cells = [])
      (aim : m.work.purpose = .statement) (here : t = m.work.index + 1) (settled : Settled stack)
  | brace {c : Cell} (works : m.WorksOn t [c] .statement) (kind : c.token.kind = .openBrace)
      (brace : p.BraceAt { line := t, token := c.ref })
  | closing {line : Line} {c : Cell} (works : m.WorksOn t [c] .statement)
      (kind : c.token.kind = .closeBrace) (found : p.lines[t]? = some line)
      (cells : line.cells = [c]) (settled : Settled stack)
  | passing {line : Line} {before after : List Cell} {c : Cell}
      (works : m.WorksOn t (c :: after) .statement) (kind : c.token.kind = .keyword .else)
      (found : p.lines[t]? = some line) (cells : line.cells = before ++ c :: after)
      (settled : Settled stack)
  | keyword {line : Line} {before mid tail : List Cell} {c : Cell} {k : Keyword}
      (works : m.WorksOn t (c :: (mid ++ tail)) .statement) (kind : c.token.kind = .keyword k)
      (first : k.priority = Priority.control) (notElse : k ≠ .else) (notBack : k ≠ .goback)
      (found : p.lines[t]? = some line) (cells : line.cells = before ++ c :: (mid ++ tail))
      (plain : Plain mid) (after : BraceAfter k mid tail) (settled : Settled stack)
  | reducing {pre mid post : List Cell} (running : m.finished = false)
      (reduces : m.work.Reduces p stack t pre mid post)

structure Stands (m : Machine) (p : Program) (stack : List Scope) : Prop where
  program : m.program = p
  functions : ∀ f ∈ m.functions.all, p.FunctionBody f.body
  mirrors : m.Mirrors stack

structure Nested (m : Machine) (p : Program) (stack : List Scope) : Prop where
  stands : m.Stands p stack
  state : m.finished = true ∧ stack = [] ∨ ∃ t, Nest p stack t ∧ m.Doing p stack t

def Shifts (m : Machine) (stack : List Scope) (m' : Machine) (stack' : List Scope) : Prop :=
  ∃ inner inner' base, stack = inner ++ base ∧ stack' = inner' ++ base ∧ CallFree inner ∧
    CallFree inner' ∧ Symbols.Keeps base.length m.symbols m'.symbols

def Moves (m : Machine) (p : Program) (stack : List Scope) (m' : Machine) : Prop :=
  ∃ stack', m'.Nested p stack' ∧ m.Shifts stack m' stack'

variable {m m₁ m' m'' : Machine} {p : Program}
    {stack stack₁ stack' stack'' inner outer : List Scope}
  {t : Nat}

/-!
## Shifts
-/

theorem shifts_of_grows (grows : m.symbols.Grows m'.symbols) (stack : List Scope) :
    m.Shifts stack m' stack :=
  ⟨[], [], stack, rfl, rfl, rfl, rfl, grows.keeps _⟩

theorem shifts_of_eq (same : m'.symbols = m.symbols) (stack : List Scope) :
    m.Shifts stack m' stack :=
  shifts_of_grows (same ▸ .refl _) stack

theorem shifts_unwind {k : Nat} (free : CallFree inner) (le : outer.length ≤ k)
    (symbols : m'.symbols = m.symbols.unwind k) : m.Shifts (inner ++ outer) m' outer :=
  ⟨inner, [], outer, rfl, rfl, free, rfl, symbols ▸ Symbols.keeps_unwind le _⟩

theorem Shifts.trans (first : m.Shifts stack m' stack') (second : m'.Shifts stack' m'' stack'') :
    m.Shifts stack m'' stack'' := by
  obtain ⟨a, a', base, rfl, rfl, freeA, freeA', keeps⟩ := first
  obtain ⟨b, b', base', split, rfl, freeB, freeB', keeps'⟩ := second
  -- The lower one of the two bases serves for both.
  rcases List.append_eq_append_iff.1 split with ⟨x, rfl, rfl⟩ | ⟨x, rfl, rfl⟩
  · refine ⟨a ++ x, b', base', by simp, rfl, ?_, freeB', ?_⟩
    · exact callFree_append.2 ⟨freeA, (callFree_append.1 freeB).2⟩
    · refine Symbols.Keeps.trans (fun s low under => keeps s ?_ under) keeps'
      rw [List.length_append]
      omega
  · refine ⟨a, b' ++ x, base, rfl, by simp, freeA, ?_, ?_⟩
    · exact callFree_append.2 ⟨freeB', (callFree_append.1 freeA').2⟩
    · refine keeps.trans fun s low under => keeps' s ?_ under
      rw [List.length_append]
      omega

theorem Moves.after (moves : m'.Moves p stack' m'') (shifts : m.Shifts stack m' stack') :
    m.Moves p stack m'' := by
  obtain ⟨stack'', nested, shifts'⟩ := moves
  exact ⟨stack'', nested, shifts.trans shifts'⟩

def Lands (m : Machine) (p : Program) (stack : List Scope) (m' : Machine) : Prop :=
  m'.Nested p stack ∧ m'.symbols = m.symbols

theorem Lands.moves (lands : m.Lands p stack m') : m.Moves p stack m' :=
  ⟨stack, lands.1, shifts_of_eq lands.2 stack⟩

/-!
## Stacks in step
-/

theorem Mirrors.shrink (mirrors : m.Mirrors (inner ++ outer))
    (depth : m'.symbols.depth = outer.length)
    (loops : m'.loops = Scope.loops outer) (calls : m'.calls = Scope.calls outer)
    (blocks : m'.blocks.filter (fun b => decide (b.depth ≤ outer.length)) =
      m.blocks.filter fun b => decide (b.depth ≤ outer.length)) : m'.Mirrors outer where
  depth := depth
  loops := loops
  calls := calls
  blocks := by
    rw [blocks, ← filter_blocks inner outer, ← mirrors.blocks, List.filter_filter]
    refine List.filter_congr ?_
    intro b _
    rw [List.length_append]
    by_cases low : b.depth ≤ outer.length
    · simp [low, Nat.le_trans low (Nat.le_add_left _ inner.length)]
    · simp [low]

theorem Mirrors.same (mirrors : m.Mirrors stack) (symbols : m'.symbols.depth = m.symbols.depth)
    (loops : m'.loops = m.loops) (calls : m'.calls = m.calls) (blocks : m'.blocks = m.blocks) :
    m'.Mirrors stack :=
  ⟨symbols.trans mirrors.depth, loops.trans mirrors.loops, calls.trans mirrors.calls,
    by rw [blocks, mirrors.blocks]⟩

def keptBlocks (m : Machine) : List Block :=
  m.blocks.filter fun b => decide (b.depth < m.symbols.depth + 1)

theorem outcome_newScope_block (b : Position) : (Action.newScope (some b)).outcome m = .ok ((),
    { m with
      symbols := m.symbols.push
      blocks := m.keptBlocks ++ [{ depth := m.symbols.depth + 1, brace := b }] }) := rfl

theorem outcome_newScope_none : (Action.newScope none).outcome m = .ok ((),
    { m with symbols := m.symbols.push, blocks := m.keptBlocks }) := rfl

theorem Mirrors.keptBlocks (mirrors : m.Mirrors stack) : m.keptBlocks = Scope.blocks stack := by
  rw [Machine.keptBlocks, ← mirrors.blocks, mirrors.depth]
  exact List.filter_congr fun b _ => decide_eq_decide.2 Nat.lt_succ_iff

theorem filter_blocks_self (stack : List Scope) {n : Nat} (le : stack.length ≤ n) :
    (Scope.blocks stack).filter (fun b => decide (b.depth ≤ n)) = Scope.blocks stack := by
  rw [List.filter_eq_self]
  exact fun b hb => decide_eq_true (Nat.le_trans (depth_blocks hb) le)

theorem Mirrors.openBlock (mirrors : m.Mirrors stack) (b : Position)
    (depth : m'.symbols.depth = m.symbols.depth + 1) (loops : m'.loops = m.loops)
    (calls : m'.calls = m.calls)
    (blocks : m'.blocks = m.keptBlocks ++ [{ depth := m.symbols.depth + 1, brace := b }]) :
    m'.Mirrors (.block b :: stack) where
  depth := by rw [depth, mirrors.depth, List.length_cons]
  loops := loops.trans mirrors.loops
  calls := calls.trans mirrors.calls
  blocks := by
    rw [blocks, mirrors.keptBlocks, List.filter_append, List.length_cons,
      filter_blocks_self stack (Nat.le_succ _), mirrors.depth]
    simp [Scope.blocks]

theorem Mirrors.openLoop (mirrors : m.Mirrors stack) (l : Loop)
    (depth : m'.symbols.depth = m.symbols.depth + 1) (loops : m'.loops = l :: m.loops)
    (calls : m'.calls = m.calls) (blocks : m'.blocks = m.keptBlocks) :
    m'.Mirrors (.loop l :: stack) where
  depth := by rw [depth, mirrors.depth, List.length_cons]
  loops := by rw [loops, mirrors.loops, loops_loop]
  calls := calls.trans mirrors.calls
  blocks := by
    rw [blocks, mirrors.keptBlocks, List.length_cons, filter_blocks_self stack (Nat.le_succ _)]
    rfl

theorem Mirrors.openCall (mirrors : m.Mirrors stack) (c : Call)
    (depth : m'.symbols.depth = m.symbols.depth + 1) (loops : m'.loops = m.loops)
    (calls : m'.calls = c :: m.calls) (blocks : m'.blocks = m.keptBlocks) :
    m'.Mirrors (.call c :: stack) where
  depth := by rw [depth, mirrors.depth, List.length_cons]
  loops := loops.trans mirrors.loops
  calls := by rw [calls, mirrors.calls, calls_call]
  blocks := by
    rw [blocks, mirrors.keptBlocks, List.length_cons, filter_blocks_self stack (Nat.le_succ _)]
    rfl

/-!
## Coming to a line
-/

theorem Stands.withWork (stands : m.Stands p stack) (work : Work) :
    ({ m with work } : Machine).Stands p stack :=
  ⟨stands.program, stands.functions, stands.mirrors.same rfl rfl rfl rfl⟩

theorem Stands.halted (stands : m.Stands p stack) (balanced : p.Balanced) (nest : Nest p stack t)
    (past : p.lines[t]? = none) :
    ({ m with work := {}, finished := true } : Machine).Nested p stack :=
  ⟨⟨stands.program, stands.functions, stands.mirrors.same rfl rfl rfl rfl⟩,
    .inl ⟨rfl, nest.eq_nil balanced past⟩⟩

section

variable {line : Line} {cells : List Cell}

/-- A machine that is about to start a statement. -/
theorem doing_phrase (balanced : p.Balanced) (phrase : Phrase cells) (filled : cells ≠ [])
    (found : p.lines[t]? = some line) (before : List Cell) (whole : line.cells = before ++ cells)
    (works : m.WorksOn t cells .statement) (sound : m.work.line.Sound) (settled : Settled stack) :
    m.Doing p stack t := by
  have fresh := (balanced.loaded.line found).fresh
  cases phrase with
  | plain plain =>
      cases cells with
      | nil => exact absurd rfl filled
      | cons c rest =>
          have bare := isScopeBracket_of_isPlain (plain_cons.1 plain).1
          have level := balanced.openAt_level found whole bare fun d hd =>
            ne_openBrace_of_isPlain ((plain_cons.1 plain).2 d hd)
          have unselected := works.unselected (by rintro d ⟨⟩; exact bare)
          have slot : Slot p stack t m.work.index m.work.purpose [] [] := by
            rw [works.index, works.aim]
            exact .statement settled level
          exact .reducing works.running
            ⟨slot, by simpa using works.holds, plain, by simp, sound, unselected⟩
  | brace kind => exact .brace works kind ⟨line, before, _, found, whole, kind, rfl⟩
  | @keyword c k mid tail kind control notBack plain after =>
      have bare : c.token.kind.isScopeBracket = false := by rw [kind]; rfl
      have unselected := works.unselected (by rintro d ⟨⟩; exact bare)
      have level : tail = [] → p.openAt (t + 1) = p.openAt t := by
        rintro rfl
        refine balanced.openAt_level found whole bare fun d hd => ne_openBrace_of_isPlain ?_
        exact plain d (by simpa using hd)
      have leads (slot : Slot p stack t t .statement [c] tail) : m.Doing p stack t := by
        have here : Slot p stack t m.work.index m.work.purpose [c] tail := by
          rw [works.index, works.aim]
          exact slot
        refine .reducing works.running ⟨here, ?_, plain, ?_, sound, unselected⟩
        · rw [works.holds]
          simp
        · intro more
          cases after with
          | none => exact absurd rfl more
          | brace _ _ free => exact free
      cases k with
      | «if» =>
          refine leads (.branch settled found whole kind (fresh c (by simp [whole])) ?_)
          cases after with
          | none => exact .inl ⟨rfl, level rfl⟩
          | @brace d kind _ _ => exact .inr ⟨d, rfl, kind, fresh d (by simp [whole])⟩
      | «return» =>
          cases after with
          | none => exact leads (.giveBack settled (level rfl) kind)
          | brace _ heads _ => cases heads
      | system => exact absurd rfl control
      | goback => exact absurd rfl notBack
      | «else» => exact .passing works kind found whole settled
      | _ => exact .keyword works kind rfl nofun nofun found whole plain after settled

theorem doing_line (balanced : p.Balanced) (structured : p.BlockStructured)
    (found : p.lines[t]? = some line) (works : m.WorksOn t line.cells .statement)
    (sound : m.work.line.Sound) (settled : Settled stack) : m.Doing p stack t := by
  have form := structured.form balanced (List.mem_of_getElem? found)
  generalize cells : line.cells = all at form works
  cases form with
  | closing kind => exact .closing works kind found cells settled
  | phrase filled phrase _ =>
      exact doing_phrase balanced phrase filled found [] cells works sound settled
  | otherwise kind phrase =>
      have whole : line.cells = [] ++ _ := cells
      exact .passing works kind found whole settled

end

section

variable (balanced : p.Balanced) (stands : m.Stands p stack) (running : m.finished = false)

include balanced stands running

theorem Stands.toLine (structured : p.BlockStructured) (settled : Settled stack)
    (nest : Nest p stack t) (ran : (Action.goToLine t).outcome m = .ok ((), m')) :
    m.Lands p stack m' := by
  cases found : p.lines[t]? with
  | none =>
      rw [outcome_goToLine_past (stands.program ▸ found)] at ran
      cases ran
      exact ⟨stands.halted balanced nest found, rfl⟩
  | some line =>
      rw [outcome_goToLine (stands.program ▸ found)] at ran
      cases ran
      have loaded := balanced.loaded.line found
      refine ⟨⟨stands.withWork _, .inr ⟨t, nest, ?_⟩⟩, rfl⟩
      exact doing_line balanced structured found
        ⟨running, rfl, rfl, rfl, loaded.distinct, by simp⟩ loaded.sound settled

theorem Stands.toFirst (structured : p.BlockStructured) (settled : Settled stack)
    (nest : Nest p stack t) (ran : (Action.goTo (p.firstFrom? t)).outcome m = .ok ((), m')) :
    m.Lands p stack m' := by
  rw [Program.firstFrom?_eq balanced.loaded] at ran
  cases found : p.lines[t]? with
  | none =>
      rw [found] at ran
      cases ran
      exact ⟨stands.halted balanced nest found, rfl⟩
  | some line =>
      have loaded := balanced.loaded.line found
      cases cells : line.cells with
      | nil => exact absurd cells loaded.filled
      | cons c after =>
          simp only [found, Option.bind_some, Program.headOf, cells, List.head?_cons,
            Option.map_some] at ran
          rw [outcome_goTo (stands.program ▸ found) loaded [] cells] at ran
          cases ran
          refine ⟨⟨stands.withWork _, .inr ⟨t, nest, ?_⟩⟩, rfl⟩
          refine doing_line balanced structured found ?_ (loaded.sound.withCells ?_) settled
          · rw [cells]
            exact worksOn_goTo running loaded [] cells
          · simp [Line.refs, cells]

theorem Stands.pastBlock (structured : p.BlockStructured) (settled : Settled stack) {e : Extent}
    (block : p.IsBlock e) (nest : Nest p stack e.opening.line) {target : Option Position}
    (follows : p.following e.closing = .ok target)
    (ran : (Action.goTo target).outcome m = .ok ((), m')) : m.Lands p stack m' := by
  obtain ⟨close, ends⟩ := block.ends balanced
  rw [ends.following balanced.loaded] at follows
  cases follows
  exact stands.toFirst balanced running structured settled (nest.congr settled ends.outside) ran

theorem Stands.toPhrase {line : Line} {c : Cell} {after : List Cell}
    (found : p.lines[t]? = some line) (before : List Cell)
    (cells : line.cells = before ++ c :: after) (phrase : Phrase (c :: after))
    (settled : Settled stack) (nest : Nest p stack t)
    (ran : (Action.goTo (some { line := t, token := c.ref })).outcome m = .ok ((), m')) :
    m.Lands p stack m' := by
  have loaded := balanced.loaded.line found
  rw [outcome_goTo (stands.program ▸ found) loaded before cells] at ran
  cases ran
  refine ⟨⟨stands.withWork _, .inr ⟨t, nest, ?_⟩⟩, rfl⟩
  refine doing_phrase balanced phrase (by simp) found before cells
    (worksOn_goTo running loaded before cells) (loaded.sound.withCells ?_) settled
  rw [Line.refs, cells]
  exact (List.sublist_append_right before _).map _

theorem Stands.toBrace {b : Position} (brace : p.BraceAt b) (nest : Nest p stack b.line)
    (ran : (Action.goTo (some b)).outcome m = .ok ((), m')) : m.Lands p stack m' := by
  obtain ⟨line, header, c, found, cells, kind, ref⟩ := id brace
  have loaded := balanced.loaded.line found
  have place : b = { line := b.line, token := c.ref } := by rw [ref]
  rw [place, outcome_goTo (stands.program ▸ found) loaded header cells] at ran
  cases ran
  refine ⟨⟨stands.withWork _, .inr ⟨b.line, nest, ?_⟩⟩, rfl⟩
  exact .brace (worksOn_goTo running loaded header cells) kind (place ▸ brace)

end

end Machine

end LineScript
