import LineScript.Proofs.Nesting.Blocks
import LineScript.Proofs.Nesting.Jumps
import LineScript.Proofs.Safety.Reduction

/-!
# Transfers of control of sane machines

A keyword or a brace of the working line is looked up in the program line that it came from, and so
are the parts of a loop header and the call that a value is put in the place of.  All of them are
there, whatever has been done to the working line in the meantime.
-/

namespace LineScript

variable {m : Machine} {p : Program} {n : Nat} {f : Focus}

namespace Machine.Sane

theorem pushed (sane : m.Sane p n) :
    ({ m with symbols := m.symbols.push, blocks := m.keptBlocks } : Machine).Sane p n :=
  { sane with
    symbols := sane.symbols.push
    blocks := fun b hb => sane.blocks b (List.mem_filter.1 hb).1 }

end Machine.Sane

namespace Action

variable (balanced : p.Balanced) (bounded : p.Bounded n)

include balanced bounded

/-!
## Branches
-/

omit bounded in
theorem elseBranch_ok {close : Position} (linked : p.Linked close) :
    ∃ target, elseBranch p close = .ok target ∧ ∀ pos, target = some pos → p.Linked pos := by
  obtain ⟨after, follows, next⟩ := linked.following balanced.loaded
  cases after with
  | none => exact ⟨none, by simp [elseBranch, follows], nofun⟩
  | some pos =>
      obtain ⟨token, here⟩ := (next pos rfl).tokenAt balanced.loaded
      obtain ⟨behind, follows', next'⟩ := (next pos rfl).following balanced.loaded
      by_cases isElse : token.kind = .keyword .else
      · exact ⟨behind, by simp [elseBranch, follows, here, isElse, follows'], next'⟩
      · exact ⟨some pos, by simp [elseBranch, follows, here, isElse], next⟩

theorem takeBranch_safe (sane : m.Sane p n) (whole : f.cells = m.work.line.cells)
    (kind : f.cell.token.kind = .keyword .if) (condition : Cell) :
    (takeBranch f condition).Safe m fun _ m' => m'.Sane p n := by
  obtain ⟨line, before, c, after, found, cells, position, -, kindC⟩ :=
    sane.position whole (by rw [kind]; rfl)
  have bare : c.token.kind.isScopeBracket = false := by rw [kindC, kind]; rfl
  unfold takeBranch
  refine .value fun v _ => ?_
  split
  · rename_i taken
    refine .next (outcome_get m) ?_
    rw [sane.program, position]
    refine .except (Program.blockStart_noFault balanced.loaded
      (Program.linked_of_mem found (by simp [cells]))) fun block started => ?_
    have brace := (Program.headedBy_of_blockStart balanced found cells bare started).brace
    refine .next (outcome_emit _ m) ?_
    split
    · refine sane.goTo balanced.loaded bounded ?_
      rintro _ ⟨⟩
      exact brace.linked
    · obtain ⟨closing, close, ended, ends⟩ := brace.exists_block balanced
      obtain ⟨target, branch, next⟩ := elseBranch_ok balanced ends.linked
      refine .known ended (.fault branch ?_)
      exact sane.goTo balanced.loaded bounded next
  · exact safe_fail _ _

theorem branch_safe (sane : m.Sane p n) (whole : f.cells = m.work.line.cells)
    (kind : f.cell.token.kind = .keyword .if) : (branch f).Safe m fun _ m' => m'.Sane p n := by
  unfold branch rightOperand
  refine .operand fun condition _ _ => ?_
  split
  · split
    · exact safe_raise _
    · exact takeBranch_safe balanced bounded sane whole kind condition
  · exact takeBranch_safe balanced bounded sane whole kind condition

theorem passElse_safe (sane : m.Sane p n) (whole : f.cells = m.work.line.cells)
    (kind : f.cell.token.kind = .keyword .else) : (passElse f).Safe m fun _ m' => m'.Sane p n := by
  obtain ⟨line, before, c, after, found, cells, position, -, kindC⟩ :=
    sane.position whole (by rw [kind]; rfl)
  have bare : c.token.kind.isScopeBracket = false := by rw [kindC, kind]; rfl
  unfold passElse
  refine .next (outcome_get m) ?_
  rw [sane.program, position]
  refine .except (Program.blockAfter_noFault balanced found cells bare) fun block made => ?_
  obtain ⟨close, ends⟩ :=
    (Program.headedBy_of_blockAfter balanced found cells bare made).2.ends balanced
  obtain ⟨target, follows, next⟩ := ends.linked.following balanced.loaded
  exact .fault follows (sane.goTo balanced.loaded bounded next)

/-!
## Loops
-/

theorem workOnHeader_safe (sane : m.Sane p n) {header : Nat} {line : Line} {part : HeaderPart}
    (found : p.lines[header]? = some line) (spans : line.Spans part) (purpose : Purpose) :
    (workOnHeader header part purpose).Safe m fun _ m' => m'.Sane p n := by
  obtain ⟨before, mid, after, cells, first, last⟩ := spans
  obtain ⟨c, hc, refC⟩ := Option.map_eq_some_iff.1 first
  obtain ⟨d, hd, refD⟩ := Option.map_eq_some_iff.1 last
  have kept : line.keepRange part.1 part.2 = .ok (line.withCells mid) := by
    rw [← refC, ← refD]
    exact (balanced.loaded.line found).keepRange cells hc hd
  unfold workOnHeader
  refine .next (outcome_get m) ?_
  rw [sane.program]
  refine .fault (by rw [Program.lineAt_eq found]; exact kept)
    (safe_of_ok (outcome_modify _ m) (sane.withWork ?_ ?_))
  · exact Work.stems_copy balanced.loaded bounded found before mid after cells purpose nofun
  · exact Nat.le_trans (bounded.drawn line (List.mem_of_getElem? found)) sane.ids

theorem leaveLoop_safe (sane : m.Sane p n) : leaveLoop.Safe m fun _ m' => m'.Sane p n := by
  unfold leaveLoop
  refine .next (outcome_get m) ?_
  cases loops : m.loops with
  | nil => exact safe_of_ok (outcome_pure _ m) sane
  | cons loop rest =>
      have linked := sane.loops loop (by simp [loops])
      obtain ⟨close, ends⟩ := linked.body.ends balanced
      obtain ⟨target, follows, next⟩ := ends.linked.following balanced.loaded
      refine .next (outcome_modify _ m) (.next (outcome_emit _ _) ?_)
      refine .fault (by rw [sane.program]; exact follows) ?_
      have left : ({ m with loops := rest, symbols := m.symbols.unwind loop.scopes } :
          Machine).Sane p n :=
        { sane with
          loops := fun l hl => sane.loops l (by simp [loops, hl])
          symbols := sane.symbols.unwind _ }
      exact left.goTo balanced.loaded bounded next

theorem testLoop_safe (sane : m.Sane p n) : testLoop.Safe m fun _ m' => m'.Sane p n := by
  unfold testLoop
  refine .next (outcome_get m) ?_
  cases loops : m.loops with
  | nil => exact safe_of_ok (outcome_pure _ m) sane
  | cons loop rest =>
      simp only
      cases condition : loop.condition with
      | none => exact leaveLoop_safe balanced bounded sane
      | some part =>
          obtain ⟨line, found, spans⟩ :=
            (sane.loops loop (by simp [loops])).parts part (.inr (.inl condition))
          exact workOnHeader_safe balanced bounded sane found spans _

theorem decideLoop_safe (sane : m.Sane p n) (result : Option Token) :
    (decideLoop result).Safe m fun _ m' => m'.Sane p n := by
  unfold decideLoop
  split
  · exact leaveLoop_safe balanced bounded sane
  · rename_i token
    refine .next (outcome_get m) (.except (m.valueOf_noFault token) fun v _ =>
      .cause fun holds _ => ?_)
    split
    · cases loops : m.loops with
      | nil => exact safe_of_ok (outcome_pure _ m) sane
      | cons loop rest =>
          refine sane.goTo balanced.loaded bounded ?_
          rintro _ ⟨⟩
          exact (sane.loops loop (by simp [loops])).body.brace.linked
    · exact leaveLoop_safe balanced bounded sane

theorem nextIteration_safe (sane : m.Sane p n) :
    nextIteration.Safe m fun _ m' => m'.Sane p n := by
  unfold nextIteration
  refine .next (outcome_get m) ?_
  cases loops : m.loops with
  | nil => exact safe_of_ok (outcome_pure _ m) sane
  | cons loop rest =>
      have linked := sane.loops loop (by simp [loops])
      have closed : ({ m with symbols := m.symbols.unwind (loop.scopes + 1) } : Machine).Sane p n :=
        { sane with symbols := sane.symbols.unwind _ }
      refine .next (outcome_setSymbols _ m) ?_
      cases step : loop.step with
      | none => exact testLoop_safe balanced bounded closed
      | some part =>
          obtain ⟨line, found, spans⟩ := linked.parts part (.inr (.inr step))
          exact workOnHeader_safe balanced bounded closed found spans _

theorem obeySignal_safe (sane : m.Sane p n) (signal : Signal) (line : Nat) :
    (obeySignal signal line).Safe m fun _ m' => m'.Sane p n := by
  unfold obeySignal
  refine .next (outcome_get m) ?_
  split
  · exact safe_fail _ _
  · split
    · cases signal with
      | «break» => exact leaveLoop_safe balanced bounded sane
      | «continue» => exact nextIteration_safe balanced bounded sane
    · exact safe_fail _ _

omit balanced bounded in
theorem beginLoop_safe (sane : m.Sane p n) {loop : Loop} (linked : loop.LinkedIn p)
    {rest : Action Unit}
    (onward : ∀ m₁ : Machine, m₁.Sane p n → rest.Safe m₁ fun _ m' => m'.Sane p n) :
    (do beginLoop loop; rest : Action Unit).Safe m fun _ m' => m'.Sane p n := by
  have begun : ({ m with
      symbols := m.symbols.push
      blocks := m.keptBlocks
      loops := loop :: m.loops } : Machine).Sane p n :=
    { sane.pushed with
      loops := by
        intro l hl
        rcases List.mem_cons.1 hl with rfl | hl
        · exact linked
        · exact sane.loops l hl }
  exact .next (show (beginLoop loop).outcome m = .ok ((), _) from rfl) (onward _ begun)

omit balanced bounded in
theorem whileCondition_total {line : Line} {header : Nat} {keyword : Ref} {opening : Position}
    {first last : Option Ref} (next : line.next keyword = .ok first)
    (prev : (if opening.line = header then line.prev opening.token
    else pure line.last?) = .ok last) :
    ∃ condition, whileCondition line header keyword opening = .ok condition := by
  simp only [whileCondition, next, Except.bind_eq_bind, Except.bind_ok]
  split at prev
  · rename_i here
    rw [if_pos here, prev, Except.bind_ok]
    split <;> exact ⟨_, rfl⟩
  · rename_i elsewhere
    rw [if_neg elsewhere, Except.pure_eq_ok, Except.bind_ok]
    split <;> exact ⟨_, rfl⟩

omit bounded in
/-- The condition of a `while` goes from the token behind it to the one before the block, or to the
end of the line. -/
theorem whileCondition_spans {t : Nat} {line : Line} {before after : List Cell} {c : Cell}
    (found : p.lines[t]? = some line) (cells : line.cells = before ++ c :: after)
    (bare : c.token.kind.isScopeBracket = false) {b : Position} (brace : p.BraceAt b) :
    ∃ condition, whileCondition line t c.ref b = .ok condition ∧
      ∀ part, condition = some part → line.Spans part := by
  have loaded := balanced.loaded.line found
  have next : line.next c.ref = .ok (after.head?.map Cell.ref) := by
    simp [Line.next, loaded.focus before cells, Focus.next?]
  by_cases here : b.line = t
  · obtain ⟨line', header, d, found', whole, kind, ref⟩ := brace
    obtain rfl : line' = line := by
      rw [here, found] at found'
      exact (Option.some.inj found').symm
    -- The brace is the last token, so the condition is all between it and the keyword.
    obtain ⟨mid, rfl⟩ : ∃ mid, after = mid ++ [d] := by
      rcases List.eq_nil_or_concat after with rfl | ⟨mid, e, rfl⟩
      · rw [cells] at whole
        have same := (List.append_inj' whole rfl).2
        rw [(List.cons.inj same).1, kind] at bare
        cases bare
      · rw [cells, List.concat_eq_append, ← List.cons_append, ← List.append_assoc] at whole
        have same := (List.append_inj' whole rfl).2
        exact ⟨mid, by rw [(List.cons.inj same).1, List.concat_eq_append]⟩
    have split : line'.cells = (before ++ c :: mid) ++ d :: [] := by simp [cells]
    have prev : (if b.line = t then line'.prev b.token else pure line'.last?) =
        .ok ((before ++ c :: mid).getLast?.map Cell.ref) := by
      rw [if_pos here, ← ref, Line.prev, loaded.focus _ split]
      simp only [Except.map_ok_eq, Focus.prev?, List.head?_reverse]
    obtain ⟨condition, made⟩ := whileCondition_total next prev
    refine ⟨condition, made, ?_⟩
    rintro part rfl
    obtain ⟨first, other, last⟩ := Machine.whileCondition_ok next prev made
    cases mid with
    | nil =>
        exfalso
        rw [List.nil_append, List.head?_cons, Option.map_some, ref] at first
        exact other (Option.some.inj first).symm
    | cons x mid =>
        refine ⟨before ++ [c], x :: mid, [d], by simp [cells], first, ?_⟩
        simpa [List.getLast?_append, List.getLast?_cons_cons] using last
  · have prev : (if b.line = t then line.prev b.token else pure line.last?) = .ok line.last? :=
      if_neg here
    obtain ⟨condition, made⟩ := whileCondition_total next prev
    refine ⟨condition, made, ?_⟩
    rintro part rfl
    obtain ⟨first, -, last⟩ := Machine.whileCondition_ok next prev made
    cases after with
    | nil => cases first
    | cons x after =>
        refine ⟨before ++ [c], x :: after, [], by simp [cells], first, ?_⟩
        simpa [Line.last?, cells, List.getLast?_append, List.getLast?_cons_cons] using last

theorem startWhile_safe (sane : m.Sane p n) (whole : f.cells = m.work.line.cells)
    (kind : f.cell.token.kind = .keyword .while) :
    (startWhile f).Safe m fun _ m' => m'.Sane p n := by
  obtain ⟨line, before, c, after, found, cells, position, ref, kindC⟩ :=
    sane.position whole (by rw [kind]; rfl)
  have bare : c.token.kind.isScopeBracket = false := by rw [kindC, kind]; rfl
  unfold startWhile
  refine .next (outcome_get m) ?_
  rw [sane.program, position, ← ref]
  refine .except (Program.blockAfter_noFault balanced found cells bare) fun body made => ?_
  have block := (Program.headedBy_of_blockAfter balanced found cells bare made).2
  obtain ⟨condition, parted, spans⟩ := whileCondition_spans balanced found cells bare block.brace
  refine .fault (Program.lineAt_eq found) (.fault parted ?_)
  refine beginLoop_safe sane ⟨?_, block⟩ fun m₁ begun => testLoop_safe balanced bounded begun
  rintro part (none | some_ | none)
  · cases none
  · exact ⟨line, found, spans part some_⟩
  · cases none

def partOf (cells : List Cell) : Option HeaderPart :=
  cells.head?.bind fun c => cells.getLast?.map fun d => (c.ref, d.ref)

omit balanced bounded in
theorem spans_headerParts {line : Line} (before mid : List Cell) {cells after : List Cell}
    {part : HeaderPart} (whole : line.cells = before ++ mid ++ cells ++ after)
    (member : some part ∈ headerParts (partOf mid) cells) : line.Spans part := by
  have here (before mid after : List Cell) (whole : line.cells = before ++ mid ++ after)
      (same : some part = partOf mid) : line.Spans part := by
    obtain ⟨c, first, rest⟩ := Option.bind_eq_some_iff.1 same.symm
    obtain ⟨d, last, rfl⟩ := Option.map_eq_some_iff.1 rest
    exact ⟨before, mid, after, whole, by simp [first], by simp [last]⟩
  induction cells generalizing before mid with
  | nil =>
      rw [headerParts, List.mem_singleton] at member
      exact here before mid after (by simpa using whole) member
  | cons d cells ih =>
      rw [Machine.headerParts_cons] at member
      split at member
      · rcases List.mem_cons.1 member with same | member
        · exact here before mid (d :: cells ++ after) (by simpa using whole) same
        · exact ih (before ++ mid ++ [d]) [] (by simpa using whole) member
      · refine ih before (mid ++ [d]) (by simpa using whole) ?_
        cases mid with
        | nil => exact member
        | cons x mid => simpa [partOf, List.getLast?_cons] using member

theorem startFor_safe (sane : m.Sane p n) (whole : f.cells = m.work.line.cells)
    (kind : f.cell.token.kind = .keyword .for) :
    (startFor f).Safe m fun _ m' => m'.Sane p n := by
  obtain ⟨line, before, c, after, found, cells, -, ref, kindC⟩ :=
    sane.position whole (by rw [kind]; rfl)
  unfold startFor
  refine .next (outcome_get m) ?_
  rw [sane.program, ← ref]
  refine .fault (Program.lineAt_eq found)
    (.fault ((balanced.loaded.line found).focus before cells) ?_)
  cases after with
  | nil => exact safe_fail _ _
  | cons opening rest =>
      simp only
      split
      · exact safe_fail _ _
      · rename_i paren
        rw [Line.enclosed_eq (Classical.not_not.1 paren), ofFault_ok_bind]
        split
        · exact safe_fail _ _
        · rename_i inner close tail split
          split
          · rename_i init condition step parts
            have whole : line.cells = (before ++ c :: opening :: inner) ++ close :: tail := by
              rw [cells, ← Line.splitClose?_append split]
              simp
            have bare : close.token.kind.isScopeBracket = false := by
              rw [kind_splitClose? split]
              rfl
            refine .except (Program.blockAfter_noFault balanced found whole bare)
              fun body made => ?_
            have block := (Program.headedBy_of_blockAfter balanced found whole bare made).2
            have spans : ∀ part, init = some part ∨ condition = some part ∨ step = some part →
                line.Spans part := by
              intro part one
              refine spans_headerParts (before ++ [c, opening]) [] (by simpa using whole) ?_
              rw [show partOf [] = none from rfl, parts]
              rcases one with rfl | rfl | rfl <;> simp
            refine beginLoop_safe sane ⟨fun part one => ⟨line, found, spans part one⟩, block⟩ ?_
            intro m₁ begun
            cases init with
            | none => exact testLoop_safe balanced bounded begun
            | some part =>
                exact workOnHeader_safe balanced bounded begun found (spans part (.inl rfl)) _
          · exact safe_fail _ _

/-!
## Labels
-/

omit bounded in
theorem scopesKept_ok (sane : m.Sane p n) (target : Nat) :
    ∃ keep, scopesKept m target = .ok keep := by
  have braces : ∀ (q : Block → Bool), ∀ b ∈ m.blocks.filter q, p.BraceAt b.brace ∧ 0 < b.depth :=
    fun q b hb => sane.blocks b (List.mem_filter.1 hb).1
  unfold scopesKept
  rw [sane.program]
  obtain ⟨keep, same, -⟩ := Machine.Cut.foldlM_keptByBlock balanced target (braces _) _
  exact ⟨keep, same⟩

theorem jumpToLabel_safe (sane : m.Sane p n) : (jumpToLabel f).Safe m fun _ m' => m'.Sane p n := by
  unfold jumpToLabel
  split
  · refine .next (outcome_get m) ?_
    split
    · exact safe_fail _ _
    · rename_i target found
      obtain ⟨keep, kept⟩ := scopesKept_ok balanced sane target
      refine .known kept (.next (outcome_modify _ m) (.next (outcome_emit _ _) ?_))
      refine Machine.Sane.goToLine ?_ balanced.loaded bounded target
      exact { sane with
        loops := fun l hl => sane.loops l (List.mem_filter.1 hl).1
        blocks := fun b hb => sane.blocks b (List.mem_filter.1 hb).1
        symbols := sane.symbols.unwind keep }
  · exact safe_raise _

theorem jumpBack_safe (sane : m.Sane p n) : (jumpBack f).Safe m fun _ m' => m'.Sane p n := by
  unfold jumpBack
  refine .next (outcome_get m) ?_
  split
  · exact safe_fail _ _
  · rename_i origin gotos _
    refine .next (outcome_modify _ m) (.next (outcome_emit _ _) ?_)
    have back : ({ m with gotos } : Machine).Sane p n := { sane with }
    exact back.goToLine balanced.loaded bounded _

end Action

end LineScript
