import LineScript.Proofs.Nesting.Invariant

/-!
# Loops of nested machines

All that a loop does leads from a nested machine to a nested one: a loop begins, its condition is
tested, an iteration ends, or the loop is left with all blocks inside of it.
-/

namespace LineScript

open Scope

/-- A part of plain cells of a line that is kept is plain. -/
theorem Program.PartAt.keepRange {p : Program} {t : Nat} {part : HeaderPart} {line line' : Line}
    (balanced : p.Balanced) (at_t : p.PartAt t part) (found : p.lines[t]? = some line)
    (kept : line.keepRange part.1 part.2 = .ok line') : Plain line'.cells ∧ line'.Sound := by
  obtain ⟨line₁, pre, mid, post, found', cells, plain, first, last⟩ := at_t
  obtain rfl : line₁ = line := by
    rw [found] at found'
    exact (Option.some.inj found').symm
  have sound := (balanced.loaded.line found).sound
  obtain ⟨c, hc, refC⟩ := List.mem_map.1 first
  obtain ⟨d, hd, refD⟩ := List.mem_map.1 last
  obtain ⟨a, b, rfl⟩ := List.append_of_mem hc
  have started : line₁.dropBefore part.1 = .ok (line₁.withCells (c :: (b ++ post))) := by
    have here : line₁.cells = (pre ++ a) ++ c :: (b ++ post) := by simp [cells]
    rw [← refC]
    simp [Line.dropBefore, Line.cellsFrom, Line.focus_eq sound.distinct _ here]
  have tail : ((c :: (b ++ post)).map Cell.ref).Sublist line₁.refs := by
    rw [Line.refs, cells]
    simp
  simp only [Line.keepRange, started, Except.bind_eq_bind, Except.bind_ok] at kept
  have inside : d ∈ c :: b := by
    rcases List.mem_append.1 hd with early | inside
    · -- The last token cannot come before the first one, or no part is kept.
      exfalso
      cases focus : (line₁.withCells (c :: (b ++ post))).focus part.2 with
      | error fault => simp [focus] at kept
      | ok f =>
          obtain ⟨whole, ref⟩ := Line.focus_ok focus
          have member : f.cell ∈ c :: (b ++ post) := by
            rw [show c :: (b ++ post) = f.cells from whole.symm]
            simp [Focus.cells]
          have distinct := sound.distinct
          rw [Line.refs, show line₁.cells = (pre ++ a) ++ (c :: (b ++ post)) by simp [cells],
            List.map_append, List.nodup_append] at distinct
          refine distinct.2.2 d.ref (List.mem_map_of_mem (by simp [early])) f.cell.ref
            (List.mem_map_of_mem member) ?_
          rw [refD, ref]
    · exact inside
  obtain ⟨a', b', split⟩ := List.append_of_mem inside
  have here : (line₁.withCells (c :: (b ++ post))).cells = a' ++ d :: (b' ++ post) := by
    have : c :: (b ++ post) = (c :: b) ++ post := rfl
    simp [Line.withCells, this, split]
  have distinct : (line₁.withCells (c :: (b ++ post))).refs.Nodup := tail.nodup sound.distinct
  rw [← refD, Line.focus_eq distinct a' here] at kept
  cases kept
  have sub : (a' ++ [d]).Sublist (c :: b) := by
    rw [split]
    exact (List.Sublist.refl a').append (List.singleton_sublist.2 (by simp))
  refine ⟨?_, ?_⟩
  · intro e he
    have member : e ∈ c :: b := sub.subset (by simpa [Line.withCells] using he)
    exact plain e (by simp only [List.mem_append]; exact .inr member)
  · refine sound.withCells ?_
    have fewer : ((c :: b).map Cell.ref).Sublist ((c :: (b ++ post)).map Cell.ref) := by simp
    have kept := ((sub.map Cell.ref).trans fewer).trans tail
    simpa using kept

namespace Machine

variable {m m' : Machine} {p : Program} {stack inner rest : List Scope} {t : Nat} {l : Loop}

/-!
## Loops
-/

theorem of_blocks (only : ∀ s ∈ inner, ∃ b, s = Scope.block b) : Scope.loops inner =
    [] ∧ CallFree inner := by
  induction inner with
  | nil => exact ⟨rfl, rfl⟩
  | cons s inner ih =>
      obtain ⟨b, rfl⟩ := only s (by simp)
      exact ih fun s hs => only s (List.mem_cons_of_mem _ hs)

theorem leaveLoop_moves (balanced : p.Balanced) (structured : p.BlockStructured)
    (stands : m.Stands p (inner ++ .loop l :: rest)) (running : m.finished = false)
    (only : ∀ s ∈ inner, ∃ b, s = Scope.block b)
    (nest : Nest p (.loop l :: rest) l.body.opening.line)
    (ran : Action.leaveLoop.outcome m = .ok ((), m')) :
    m.Moves p (inner ++ .loop l :: rest) m' := by
  obtain ⟨at_l, -, scopes, -, settled, below⟩ := nest
  obtain ⟨noLoops, free⟩ := of_blocks only
  have own : m.loops = l :: Scope.loops rest := by rw [stands.mirrors.loops]; simp [noLoops]
  obtain ⟨close, ends⟩ := at_l.block.ends balanced
  have after : m.program.following l.body.closing =
    .ok (p.firstFrom? (l.body.closing.line + 1)) := by
    rw [stands.program]
    exact ends.following balanced.loaded
  simp only [Action.leaveLoop, Action.outcome_bind, Action.outcome_get, Except.bind_ok, own,
    Action.outcome_modify, Action.outcome_emit, Action.outcome_ofFault, after, orFault,
    Except.mapError_ok_eq, Except.map_ok_eq] at ran
  have free' : CallFree (inner ++ [.loop l]) := callFree_append.2 ⟨free, rfl⟩
  have split : inner ++ .loop l :: rest = (inner ++ [.loop l]) ++ rest := by simp
  have left : Machine.Stands
      { m with loops := Scope.loops rest, symbols := m.symbols.unwind l.scopes } p rest := by
    refine ⟨stands.program, stands.functions, ?_⟩
    refine (split ▸ stands.mirrors).shrink ?_ rfl ?_ rfl
    · simp [stands.mirrors.depth, scopes]
      omega
    · rw [stands.mirrors.calls, split, calls_append, free']
      rfl
  have lands := left.toFirst balanced running structured settled
    (below.congr settled (ends.outside.trans rfl)) ran
  refine lands.moves.after ?_
  rw [split]
  exact shifts_unwind free' (Nat.le_of_eq scopes.symm) rfl

theorem workOnHeader_moves (balanced : p.Balanced) (stands : m.Stands p (.loop l :: rest))
    (running : m.finished = false) (nest : Nest p (.loop l :: rest) t) {part : HeaderPart}
    (at_header : p.PartAt l.header part) {purpose : Purpose} (other : purpose ≠ .statement)
    (ran : (Action.workOnHeader l.header part purpose).outcome m = .ok ((), m')) :
    m.Moves p (.loop l :: rest) m' := by
  obtain ⟨m₀, m₁, same, ran₁⟩ := Action.outcome_bind_ok ran
  cases same
  obtain ⟨line', m₂, kept, ran₂⟩ := Action.outcome_bind_ok ran₁
  obtain ⟨kept, rfl⟩ := Action.ofFault_ok kept
  cases ran₂
  obtain ⟨line, pre, mid, post, found, -⟩ := id at_header
  change (m₂.program.lineAt l.header).bind _ = _ at kept
  rw [stands.program, Program.lineAt_eq found, Except.bind_ok] at kept
  obtain ⟨plain, sound⟩ := at_header.keepRange balanced found kept
  refine ⟨_, ⟨stands.withWork _, .inr ⟨t, nest, ?_⟩⟩, shifts_of_eq rfl _⟩
  exact .reducing running ⟨.header rfl nest.2.1 other, by simp, plain, by simp, sound, rfl⟩

theorem testLoop_moves (balanced : p.Balanced) (structured : p.BlockStructured)
    (stands : m.Stands p (.loop l :: rest)) (running : m.finished = false)
    (nest : Nest p (.loop l :: rest) t) (ran : Action.testLoop.outcome m = .ok ((), m')) :
    m.Moves p (.loop l :: rest) m' := by
  have own : m.loops = l :: Scope.loops rest := stands.mirrors.loops
  simp only [Action.testLoop, Action.outcome_bind, Action.outcome_get, Except.bind_ok, own] at ran
  cases condition : l.condition with
  | some part =>
      rw [condition] at ran
      exact workOnHeader_moves balanced stands running nest (nest.1.condition part condition)
        (by decide : Purpose.loopCondition ≠ .statement) ran
  | none =>
      rw [condition] at ran
      exact leaveLoop_moves balanced structured
        (show m.Stands p ([] ++ .loop l :: rest) from stands) running
          (by simp) (nest.2.1 ▸ nest) ran

theorem nextIteration_moves (balanced : p.Balanced) (structured : p.BlockStructured)
    (stands : m.Stands p (inner ++ .loop l :: rest)) (running : m.finished = false)
    (only : ∀ s ∈ inner, ∃ b, s = Scope.block b)
    (nest : Nest p (.loop l :: rest) l.body.opening.line)
    (ran : Action.nextIteration.outcome m = .ok ((), m')) :
    m.Moves p (inner ++ .loop l :: rest) m' := by
  obtain ⟨noLoops, free⟩ := of_blocks only
  have own : m.loops = l :: Scope.loops rest := by rw [stands.mirrors.loops]; simp [noLoops]
  simp only [Action.nextIteration, Action.outcome_bind, Action.outcome_get, Except.bind_ok, own,
    Action.outcome_setSymbols] at ran
  rw [← own] at ran
  have left : ({ m with symbols := m.symbols.unwind (l.scopes + 1) } : Machine).Stands p
      (.loop l :: rest) := by
    refine ⟨stands.program, stands.functions, stands.mirrors.shrink ?_ own ?_ rfl⟩
    · simp [stands.mirrors.depth, nest.2.2.1]
    · rw [stands.mirrors.calls, calls_append, free]
      rfl
  have shifts : m.Shifts (inner ++ .loop l :: rest)
      { m with symbols := m.symbols.unwind (l.scopes + 1) } (.loop l :: rest) :=
    shifts_unwind free (by rw [nest.2.2.1]; simp) rfl
  cases step : l.step with
  | some part =>
      rw [step] at ran
      exact (workOnHeader_moves balanced left running nest (nest.1.step part step)
        (by decide : Purpose.loopStep ≠ .statement) ran).after shifts
  | none =>
      rw [step] at ran
      exact (testLoop_moves balanced structured left running nest ran).after shifts

theorem decideLoop_moves (balanced : p.Balanced) (structured : p.BlockStructured)
    (stands : m.Stands p (.loop l :: rest)) (running : m.finished = false)
    (nest : Nest p (.loop l :: rest) t) {result : Option Token}
    (ran : (Action.decideLoop result).outcome m = .ok ((), m')) :
    m.Moves p (.loop l :: rest) m' := by
  have own : m.loops = l :: Scope.loops rest := stands.mirrors.loops
  have leave (ran : Action.leaveLoop.outcome m = .ok ((), m')) : m.Moves p (.loop l :: rest) m' :=
    leaveLoop_moves balanced structured
      (show m.Stands p ([] ++ .loop l :: rest) from stands) running
      (by simp) (nest.2.1 ▸ nest) ran
  cases result with
  | none => exact leave ran
  | some token =>
      obtain ⟨m₀, m₁, same, ran₁⟩ := Action.outcome_bind_ok ran
      cases same
      obtain ⟨v, m₂, hv, ran₂⟩ := Action.outcome_bind_ok ran₁
      obtain ⟨-, same⟩ := Action.ofExcept_ok hv
      subst same
      obtain ⟨holds, m₃, hb, ran₃⟩ := Action.outcome_bind_ok ran₂
      obtain ⟨-, rfl⟩ := Action.ofCause_ok hb
      cases holds with
      | true =>
          simp only [if_true, own] at ran₃
          exact (stands.toBrace balanced running nest.1.headed.brace (nest.2.1 ▸ nest) ran₃).moves
      | false => exact leave ran₃

theorem beginLoop_moves (stands : m.Stands p stack) (running : m.finished = false)
    (settled : Settled stack) (nest : Nest p stack l.header) (at_l : p.LoopAt l)
    (scopes : l.scopes = m.symbols.depth) (callers : l.calls = m.calls.length) {x : Action Unit}
    (ran : (Action.beginLoop l >>= fun _ => x).outcome m = .ok ((), m'))
    (onward : ∀ m₁ : Machine, m₁.Stands p (.loop l :: stack) → m₁.finished = false →
      Nest p (.loop l :: stack) l.body.opening.line → x.outcome m₁ = .ok ((), m') →
      m₁.Moves p (.loop l :: stack) m') : m.Moves p stack m' := by
  simp only [Action.beginLoop, Action.outcome_bind, Action.outcome_emit, outcome_newScope_none,
    Action.outcome_modify, Except.bind_ok] at ran
  have inside : Nest p (.loop l :: stack) l.body.opening.line := by
    refine ⟨at_l, rfl, ?_, ?_, settled, nest.congr settled at_l.headed.level⟩
    · rw [scopes, stands.mirrors.depth]
    · rw [callers, stands.mirrors.calls]
  have begun : ({ m with
      symbols := m.symbols.push, blocks := m.keptBlocks, loops := l :: m.loops } : Machine).Stands p
        (.loop l :: stack) :=
    ⟨stands.program, stands.functions,
      stands.mirrors.openLoop l (Symbols.depth_push _) rfl rfl rfl⟩
  refine (onward _ begun running inside ran).after ?_
  exact ⟨[], [.loop l], stack, rfl, rfl, rfl, rfl, Symbols.keeps_push _ _⟩

theorem whileCondition_ok {line : Line} {header : Nat} {keyword : Ref} {opening : Position}
    {first last : Option Ref} {part : HeaderPart} (next : line.next keyword = .ok first)
    (prev : (if opening.line = header then line.prev opening.token else pure line.last?) = .ok last)
    (made : Action.whileCondition line header keyword opening = .ok (some part)) :
    first = some part.1 ∧ part.1 ≠ opening.token ∧ last = some part.2 := by
  unfold Action.whileCondition at made
  by_cases here : opening.line = header
  all_goals
    simp only [here, if_true, if_false, Except.pure_eq_ok, Except.ok.injEq] at prev
    simp only [next, here, prev, if_true, if_false, Except.bind_eq_bind, Except.bind_ok,
      Except.pure_eq_ok] at made
    split at made
    · simp only [Except.ok.injEq, Option.ite_none_right_eq_some, Option.some.injEq] at made
      obtain ⟨other, rfl⟩ := made
      exact ⟨rfl, other.1, rfl⟩
    · cases made

/-- The condition of a `while` consists of plain cells. -/
theorem partAt_whileCondition (balanced : p.Balanced) {line : Line} {before mid tail : List Cell}
    {c : Cell} {k : Keyword} (found : p.lines[t]? = some line)
    (cells : line.cells = before ++ c :: (mid ++ tail)) (plain : Plain mid)
    (after : BraceAfter k mid tail) (bare : c.token.kind.isScopeBracket = false) {b : Position}
    (headed : p.HeadedBy t b) {part : HeaderPart}
    (made : Action.whileCondition line t c.ref b = .ok (some part)) : p.PartAt t part := by
  have loaded := balanced.loaded.line found
  have next : line.next c.ref = .ok ((mid ++ tail).head?.map Cell.ref) := by
    simp [Line.next, loaded.focus before cells, Focus.next?]
  -- The part goes from the first to the last of the plain cells.
  suffices ends : mid.head?.map Cell.ref = some part.1 ∧ mid.getLast?.map Cell.ref = some part.2 by
    obtain ⟨x, hx, refX⟩ := Option.map_eq_some_iff.1 ends.1
    obtain ⟨y, hy, refY⟩ := Option.map_eq_some_iff.1 ends.2
    exact ⟨line, before ++ [c], mid, tail, found, by simp [cells], plain,
      List.mem_map.2 ⟨x, List.mem_of_head? hx, refX⟩,
      List.mem_map.2 ⟨y, List.mem_of_getLast? hy, refY⟩⟩
  have opened := headed.brace.openAt_succ balanced
  cases after with
  | none =>
      have level : p.openAt (t + 1) = p.openAt t :=
        balanced.openAt_level found cells bare fun d hd => ne_openBrace_of_isPlain
          (plain d (by simpa using hd))
      have elsewhere : b.line ≠ t := by
        intro here
        rw [here, level] at opened
        simp at opened
      obtain ⟨first, -, last⟩ := whileCondition_ok next (if_neg elsewhere) made
      rw [List.append_nil] at first cells
      refine ⟨first, ?_⟩
      cases mid with
      | nil => cases first
      | cons x mid => simpa [Line.last?, cells, List.getLast?_append] using last
  | @brace d kind heads free =>
      have whole : line.cells = (before ++ c :: mid) ++ [d] := by simp [cells]
      have here : b.line = t := by
        rcases headed.near with here | ⟨next, -⟩
        · exact here
        · have level := headed.level
          have brace : p.BraceAt { line := t, token := d.ref } :=
            ⟨line, before ++ c :: mid, d, found, whole, kind, rfl⟩
          rw [next, brace.openAt_succ balanced] at level
          simp at level
      have token : b.token = d.ref := by
        obtain ⟨line', header, d', found', cells', -, ref⟩ := headed.brace
        rw [here, found] at found'
        cases found'
        have lasts := congrArg List.getLast? (cells'.symm.trans whole)
        rw [List.getLast?_concat, List.getLast?_concat] at lasts
        rw [← ref, Option.some.inj lasts]
      have prev : line.prev b.token = .ok ((before ++ c :: mid).getLast?.map Cell.ref) := by
        rw [token, Line.prev, loaded.focus _ whole]
        simp only [Except.map_ok_eq, Focus.prev?, List.head?_reverse]
      obtain ⟨first, notBrace, last⟩ :=
        whileCondition_ok next ((if_pos here).trans prev) made
      cases mid with
      | nil =>
          simp only [List.nil_append, List.head?_cons, Option.map_some, Option.some.injEq] at first
          exact absurd (first.symm.trans token.symm) notBrace
      | cons x mid =>
          refine ⟨first, ?_⟩
          simpa [List.getLast?_append] using last

section

variable {line : Line} {before mid tail : List Cell} {c : Cell} {k : Keyword}

theorem startWhile_moves (balanced : p.Balanced) (structured : p.BlockStructured)
    (stands : m.Stands p stack) (running : m.finished = false) (settled : Settled stack)
    (index : m.work.index = t) (nest : Nest p stack t) (found : p.lines[t]? = some line)
    (cells : line.cells = before ++ c :: (mid ++ tail)) (plain : Plain mid)
    (after : BraceAfter k mid tail) (bare : c.token.kind.isScopeBracket = false)
    (ran : (Action.startWhile ⟨[], c, mid ++ tail⟩).outcome m = .ok ((), m')) :
    m.Moves p stack m' := by
  obtain ⟨m₀, m₁, same, ran₁⟩ := Action.outcome_bind_ok ran
  cases same
  obtain ⟨body, m₂, hbody, ran₂⟩ := Action.outcome_bind_ok ran₁
  obtain ⟨made, rfl⟩ := Action.ofExcept_ok hbody
  obtain ⟨line', m₃, hline, ran₃⟩ := Action.outcome_bind_ok ran₂
  obtain ⟨lined, rfl⟩ := Action.ofFault_ok hline
  obtain ⟨condition, m₄, hpart, ran₄⟩ := Action.outcome_bind_ok ran₃
  obtain ⟨parted, rfl⟩ := Action.ofFault_ok hpart
  rw [stands.program, index, Program.lineAt_eq found] at lined
  cases lined
  rw [stands.program, Machine.positionOf, index] at made
  rw [index] at parted
  obtain ⟨headed, block⟩ := Program.headedBy_of_blockAfter balanced found cells bare made
  refine beginLoop_moves stands running settled (index ▸ nest)
    ⟨index ▸ headed, block, ?_, by simp⟩ rfl rfl ran₄ ?_
  · rintro part rfl
    exact index ▸ partAt_whileCondition balanced found cells plain after bare headed parted
  · intro m₁ stands₁ running₁ nest₁ ran
    exact testLoop_moves balanced structured stands₁ running₁ nest₁ ran

theorem headerParts_cons (pending : Option HeaderPart) (d : Cell) (cells : List Cell) :
    Action.headerParts pending (d :: cells) =
      if d.token.kind = .semicolon then pending :: Action.headerParts none cells
      else Action.headerParts (some ((pending.map Prod.fst).getD d.ref, d.ref)) cells := by
  cases pending <;> rfl

theorem mem_headerParts {cells : List Cell} {part : HeaderPart} {pending : Option HeaderPart}
    (member : some part ∈ Action.headerParts pending cells) (all : List Ref)
    (among : ∀ d ∈ cells, d.ref ∈ all)
    (old : ∀ part, pending = some part → part.1 ∈ all ∧ part.2 ∈ all) :
    part.1 ∈ all ∧ part.2 ∈ all := by
  induction cells generalizing pending with
  | nil =>
      rw [Action.headerParts, List.mem_singleton] at member
      exact old part member.symm
  | cons d cells ih =>
      have here : d.ref ∈ all := among d (by simp)
      have later : ∀ e ∈ cells, e.ref ∈ all := fun e he => among e (List.mem_cons_of_mem _ he)
      rw [headerParts_cons] at member
      split at member
      · rcases List.mem_cons.1 member with same | member
        · exact old part same.symm
        · exact ih member later (by simp)
      · refine ih member later ?_
        cases pending with
        | none =>
            rintro _ ⟨⟩
            exact ⟨here, here⟩
        | some open_ =>
            rintro _ ⟨⟩
            exact ⟨(old open_ rfl).1, here⟩

theorem startFor_moves (balanced : p.Balanced) (structured : p.BlockStructured)
    (stands : m.Stands p stack) (running : m.finished = false) (settled : Settled stack)
    (index : m.work.index = t) (nest : Nest p stack t) (found : p.lines[t]? = some line)
    (cells : line.cells = before ++ c :: (mid ++ tail)) (plain : Plain mid)
    (after : BraceAfter k mid tail)
    (ran : (Action.startFor ⟨[], c, mid ++ tail⟩).outcome m = .ok ((), m')) :
    m.Moves p stack m' := by
  have loaded := balanced.loaded.line found
  obtain ⟨m₀, m₁, same, ran₁⟩ := Action.outcome_bind_ok ran
  cases same
  obtain ⟨line', m₂, hline, ran₂⟩ := Action.outcome_bind_ok ran₁
  obtain ⟨lined, rfl⟩ := Action.ofFault_ok hline
  rw [stands.program, index, Program.lineAt_eq found] at lined
  cases lined
  obtain ⟨start, m₃, hstart, ran₃⟩ := Action.outcome_bind_ok ran₂
  obtain ⟨started, rfl⟩ := Action.ofFault_ok hstart
  rw [loaded.focus before cells] at started
  cases started
  have firm : Firm tail := by
    cases after with
    | none => simp [Firm]
    | brace kind _ _ =>
        simp [Firm, kind, TokenKind.openBrace, TokenKind.isPlain, TokenKind.isControl,
        TokenKind.isScopeBracket]
  split at ran₃
  · cases ran₃
  · rename_i opening rest started
    change mid ++ tail = opening :: rest at started
    split at ran₃
    · cases ran₃
    · rename_i paren
      rw [Line.enclosed_eq (Classical.not_not.1 paren), Action.ofFault_ok_bind] at ran₃
      split at ran₃
      · cases ran₃
      · rename_i inner close more split
        -- The header lies among the plain cells.
        have kindClose := Action.kind_splitClose? split
        have whole := Line.splitClose?_append split
        have same : (opening :: (inner ++ [close])) ++ more = mid ++ tail := by
          rw [started, ← whole]
          simp
        obtain ⟨b, onMid, -⟩ := Action.append_firm same (by
          intro d hd
          obtain rfl : close = d := by
            rw [← List.cons_append, List.getLast?_concat] at hd
            exact Option.some.inj hd
          rw [kindClose]
          rfl) firm
        split at ran₃
        · rename_i init condition step parts
          obtain ⟨body, m₄, hbody, ran₄⟩ := Action.outcome_bind_ok ran₃
          obtain ⟨made, rfl⟩ := Action.ofExcept_ok hbody
          rw [stands.program, index] at made
          have cells' : line.cells = (before ++ c :: opening :: inner) ++ close :: (b ++ tail) := by
            rw [cells, onMid]
            simp
          obtain ⟨headed, block⟩ := Program.headedBy_of_blockAfter balanced found cells'
            (by rw [kindClose]; rfl) made
          have part_at : ∀ part, some part ∈ Action.headerParts none inner →
              p.PartAt m₄.work.index part := by
            intro part member
            have ends := mem_headerParts member (mid.map Cell.ref)
              (fun d hd => List.mem_map_of_mem (by simp [onMid, hd])) (by simp)
            exact ⟨line, before ++ [c], mid,
              tail, by rw [index]; exact found, by simp [cells], plain,
              ends.1, ends.2⟩
          rw [parts] at part_at
          refine beginLoop_moves stands running settled (index ▸ nest)
            ⟨index ▸ headed, block, fun part h => part_at part (by simp [← h]),
              fun part h => part_at part (by simp [← h])⟩ rfl rfl ran₄ ?_
          intro m₁ stands₁ running₁ nest₁ ran
          split at ran
          · rename_i part
            exact workOnHeader_moves balanced stands₁ running₁ nest₁ (part_at part (by simp))
              (by decide : Purpose.loopInit ≠ .statement) ran
          · exact testLoop_moves balanced structured stands₁ running₁ nest₁ ran
        · cases ran₃

theorem obeySignal_moves (balanced : p.Balanced) (structured : p.BlockStructured)
    (stands : m.Stands p stack) (running : m.finished = false) (nest : Nest p stack t)
    {signal : Signal} {n : Nat} (ran : (Action.obeySignal signal n).outcome m = .ok ((), m')) :
    m.Moves p stack m' := by
  obtain ⟨m₀, m₁, same, ran₁⟩ := Action.outcome_bind_ok ran
  cases same
  split at ran₁
  · cases ran₁
  · rename_i l ls own
    split at ran₁
    · rename_i called
      obtain ⟨inner, rest, rfl, only, below⟩ := nest.innermost_loop
        (stands.mirrors.loops.symm.trans own) (by rw [called, stands.mirrors.calls])
      cases signal with
      | «break» => exact leaveLoop_moves balanced structured stands running only below ran₁
      | «continue» => exact nextIteration_moves balanced structured stands running only below ran₁
    · cases ran₁

end

end Machine

end LineScript
