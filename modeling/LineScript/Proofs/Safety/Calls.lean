import LineScript.Proofs.Safety.Control

/-!
# Functions and blocks of sane machines

A call keeps the line that it stands in, and its value is put into that line when it returns.  A
block is recorded by its `{`.  Both are found again, since the frames and records of a sane machine
name what is there.
-/

namespace LineScript

variable {m : Machine} {p : Program} {n : Nat} {f : Focus}

namespace Action

/-!
## Arguments and parameters
-/

theorem readArguments_noFault {close : Cell} {read : List Value} {expecting : Bool}
    (cells : List Cell) (fault : Fault) :
    readArguments m close read expecting cells ≠ .error (.fault fault) := by
  induction cells generalizing read expecting with
  | nil =>
      rw [readArguments]
      split <;> nofun
  | cons c cells ih =>
      rw [readArguments]
      split
      · exact ih
      · split
        · cases value : m.valueOf c.token with
          | error stop =>
              rintro ⟨⟩
              exact m.valueOf_noFault c.token fault value
          | ok v => exact ih
        · nofun

theorem readArguments_plain {close : Cell} {read args : List Value} {expecting : Bool}
    {cells : List Cell} (made : readArguments m close read expecting cells = .ok args) :
    ∀ c ∈ cells, c.token.kind.isParen = false := by
  induction cells generalizing read expecting with
  | nil => nofun
  | cons c cells ih =>
      rw [readArguments] at made
      intro d hd
      split at made
      · rename_i comma
        rcases List.mem_cons.1 hd with rfl | hd
        · simp only [Bool.and_eq_true, decide_eq_true_eq] at comma
          rw [comma.1]
          rfl
        · exact ih made d hd
      · split at made
        · rename_i operand
          cases value : m.valueOf c.token with
          | error stop => simp [value] at made
          | ok v =>
              rw [value] at made
              rcases List.mem_cons.1 hd with rfl | hd
              · exact TokenKind.isParen_of_isOperand (Bool.and_eq_true_iff.1 operand).1
              · exact ih made d hd
        · cases made

theorem bindParameters_safe (sane : m.Sane p n) (line : Nat) (params : List (Parameter × Value)) :
    (bindParameters line params).Safe m fun _ m' => m'.Sane p n := by
  induction params generalizing m with
  | nil => exact safe_of_ok (outcome_pure _ m) sane
  | cons param params ih =>
      obtain ⟨parameter, value⟩ := param
      rw [bindParameters]
      refine .next (outcome_get m) (.cause fun symbols added => .next (outcome_setSymbols _ m) ?_)
      exact ih { sane with symbols := sane.symbols.add added }

theorem parensOver_site {name opening close : Cell} {args : List Cell}
    (kindO : opening.token.kind = .bracket .call .opening)
    (kindC : close.token.kind = .bracket .call .closing)
    (plain : ∀ d ∈ name :: args, d.token.kind.isParen = false) (s : List OpenParen) :
    Line.parensOver s (name :: opening :: (args ++ [close])) = s := by
  rw [Line.parensOver_cons, Cell.parensAfter_of_not_isParen (plain name (by simp)),
    Line.parensOver_cons, Cell.parensAfter_opening (by decide) kindO, Line.parensOver_append,
    Line.parensOver_of_plain fun d hd => plain d (List.mem_cons_of_mem _ hd), Line.parensOver_cons,
    Cell.parensAfter_closing (by decide) kindC]
  rfl

variable (balanced : p.Balanced) (bounded : p.Bounded n)

include balanced bounded

/-!
## Definitions and calls
-/

theorem define_safe (sane : m.Sane p n) (whole : f.cells = m.work.line.cells)
    (kind : f.cell.token.kind = .keyword .define) : (define f).Safe m fun _ m' => m'.Sane p n := by
  obtain ⟨line, before, c, after, found, cells, -, ref, -⟩ :=
    sane.position whole (by rw [kind]; rfl)
  unfold define
  refine .next (outcome_get m) ?_
  rw [sane.program, ← ref]
  refine .fault (Program.lineAt_eq found)
    (.fault ((balanced.loaded.line found).focus before cells) ?_)
  simp only
  split
  · exact safe_fail _ _
  rename_i returns name opening rest header
  obtain ⟨kindO, ret, word, same⟩ := Machine.functionHeader?_eq header
  rw [Line.enclosed_eq kindO, ofFault_ok_bind]
  split
  · exact safe_fail _ _
  · rename_i inner close tail split
    have whole : line.cells = (before ++ c :: ret :: word :: opening :: inner) ++
      close :: tail := by
      rw [cells, show after = _ from same, ← Line.splitClose?_append split]
      simp
    have bare : close.token.kind.isScopeBracket = false := by
      rw [kind_splitClose? split]
      rfl
    refine .cause fun parameters _ =>
      .except (Program.blockAfter_noFault balanced found whole bare) fun body made => ?_
    have block := (Program.headedBy_of_blockAfter balanced found whole bare made).2
    refine .next (outcome_emit _ m) ?_
    split
    · exact safe_raise _
    · rename_i functions registered
      obtain ⟨brace, ends⟩ := block.ends balanced
      obtain ⟨target, follows, next⟩ := ends.linked.following balanced.loaded
      refine .next (outcome_modify _ m) (.fault follows ?_)
      have defined : ({ m with functions } : Machine).Sane p n :=
        { sane with
          functions := by
            intro g hg
            rcases Machine.mem_register registered hg with hg | rfl
            · exact sane.functions g hg
            · exact block }
      exact defined.goTo balanced.loaded bounded next

theorem beginCall_safe (sane : m.Sane p n) (whole : f.cells = m.work.line.cells)
    (unselected : m.work.selected = none) (kind : f.cell.token.kind = .bracket .call .opening)
    {inner rest : List Cell} {close : Cell}
    (split : Line.splitClose? .call 0 f.after = some (inner, close, rest)) :
    (beginCall f inner close).Safe m fun _ m' => m'.Sane p n := by
  unfold beginCall
  cases called : calleeBefore? f with
  | none => exact safe_fail _ _
  | some callee =>
      obtain ⟨nameRef, text⟩ := callee
      obtain ⟨d, prev, named⟩ := Option.bind_eq_some_iff.1 called
      obtain ⟨word, name, same⟩ := Option.map_eq_some_iff.1 named
      cases same
      have plainD : d.token.kind.isParen = false := by
        cases h : d.token.kind with
        | name text => rfl
        | _ => simp [h, TokenKind.name?] at name
      refine .next (outcome_get m) (.except (readArguments_noFault inner) fun args read => ?_)
      refine .cause fun function found => .cause fun _ _ => .next (outcome_modify _ m) ?_
      refine .next Machine.outcome_newScope_none ?_
      have body := sane.functions function (Machine.callee_mem found)
      have site : m.work.line.cells =
          f.before.tail.reverse ++ d :: f.cell :: (inner ++ close :: rest) := by
        rw [← whole, Focus.cells, Focus.eq_of_prev? prev, Line.splitClose?_append split]
        simp
      have plain : ∀ e ∈ d :: inner, e.token.kind.isParen = false := by
        intro e he
        rcases List.mem_cons.1 he with rfl | he
        · exact plainD
        · exact readArguments_plain read e he
      let call : Call :=
        { function, origin := m.work.index, nameRef := d.ref, closeRef := close.ref
          scopes := m.symbols.depth, loops := m.loops.length, saved := m.work }
      have linked : call.LinkedIn p n :=
        ⟨sane.work, unselected, ⟨_, _, _, _, _, _, site, rfl, rfl, kind,
          kind_splitClose? split, plain⟩,
          body⟩
      have waits : ({ m with work := {}, calls := call :: m.calls } : Machine).Sane p n :=
        { sane with
          work := Work.stems_empty p n
          calls := by
            intro c hc
            rcases List.mem_cons.1 hc with rfl | hc
            · exact linked
            · exact sane.calls c hc
          drawn := by
            intro line member
            rcases List.mem_cons.1 member with rfl | member
            · exact Nat.zero_le _
            · exact sane.drawn line member }
      refine .bind (bindParameters_safe waits.pushed _ _) fun _ m₁ bound => ?_
      refine .next (outcome_get m₁) (.next (outcome_emit _ m₁) ?_)
      obtain ⟨target, follows, next⟩ := body.brace.linked.following balanced.loaded
      refine .fault (by rw [bound.program]; exact follows) ?_
      exact bound.goTo balanced.loaded bounded next

omit balanced bounded in
/-- The value of a call is put where the call was made. -/
theorem endCall_safe (sane : m.Sane p n) (value : Value) (line : Nat) :
    (endCall value line).Safe m fun _ m' => m'.Sane p n := by
  unfold endCall
  refine .next (outcome_get m) ?_
  cases calls : m.calls with
  | nil => exact safe_fail _ _
  | cons call rest =>
      have linked := sane.calls call (by simp [calls])
      obtain ⟨before, name, opening, args, close, after, cells, nameRef, closeRef,
        kindO, kindC, plain⟩ :=
        linked.site
      refine .next (outcome_modify _ m) ?_
      simp only
      split
      · exact safe_fail _ _
      · have focus := Line.focus_eq linked.stems.sound.distinct before cells
        refine .next (outcome_modify _ _) (.next (outcome_emit _ _) ?_)
        rw [← nameRef, ← closeRef]
        refine safe_of_ok ((settles_returned (by exact focus) close.ref value).outcome
          linked.stems.sound.distinct) ?_
        obtain ⟨front, -, back⟩ := Machine.answer_eq linked.stems.sound cells focus
        rw [front, back]
        have returned : ({ m with
            calls := rest
            symbols := m.symbols.unwind call.scopes
            loops := m.loops.drop (m.loops.length - call.loops)
            work := call.saved } : Machine).Sane p n :=
          { sane with
            work := linked.stems
            calls := fun c hc => sane.calls c (by simp [calls, hc])
            loops := fun l hl => sane.loops l (List.mem_of_mem_drop hl)
            symbols := sane.symbols.unwind _
            drawn := by
              intro l member
              refine sane.drawn l (List.mem_cons_of_mem _ ?_)
              rw [calls, List.map_cons]
              exact member }
        exact returned.answer linked.unselected
          (show call.saved.line.cells = before ++ (name :: opening :: (args ++ [close])) ++ after by
            simp [cells])
          (parensOver_site kindO kindC plain)
            (List.mem_cons_self ..) value returned.symbols m.sink rfl

omit balanced bounded in
theorem giveBack_safe (sane : m.Sane p n) : (giveBack f).Safe m fun _ m' => m'.Sane p n := by
  unfold giveBack
  split
  · exact .next (outcome_pure _ m) (endCall_safe sane .null _)
  · exact .value fun v _ => endCall_safe sane v _
  · exact safe_of_error rfl

omit balanced bounded in
theorem markSignal_safe (sane : m.Sane p n) (unselected : m.work.selected = none)
    (signal : Signal) :
    (markSignal f signal).Safe m fun _ m' => m'.Sane p n := by
  refine safe_of_ok (outcome_modify _ m) ?_
  have empty : m.work.line.clear.Sound := sane.work.sound.withCells (List.nil_sublist _)
  refine sane.reduce (sane.work.edit unselected (empty.append _) ?_ ?_) sane.symbols
    (Nat.le_succ _) (Nat.succ_le_succ sane.nextRef_le)
  · refine ⟨⟨Int.le_refl _, ?_, nofun, ?_⟩, trivial⟩
    · simp only [Token.new, TokenKind.basePriority, TokenKind.ceiling, Priority.inert,
        Priority.additive,
        Priority.boost, waiting, List.countP_nil]
      omega
    · exact Cell.closesOwn_of_plain rfl _
  · intro c hc anchor
    obtain rfl := List.mem_singleton.1 hc
    cases anchor

/-!
## Blocks
-/

omit bounded in
theorem openBlock_safe (sane : m.Sane p n) (whole : f.cells = m.work.line.cells)
    (unselected : m.work.selected = none) (kind : f.cell.token.kind = .openBrace) :
    (openBlock f).Safe m fun _ m' => m'.Sane p n := by
  obtain ⟨line, before, c, after, found, cells, position, -, kindC⟩ :=
    sane.position whole (by rw [kind]; rfl)
  obtain ⟨header, whole', -⟩ :=
    balanced.brace_last found (d := c) (by simp [cells]) (kindC.trans kind)
  have brace : p.BraceAt (m.positionOf f.cell) := by
    rw [position]
    exact ⟨line, header, c, found, whole', kindC.trans kind, rfl⟩
  unfold openBlock
  refine .next (outcome_get m)
    (.next ((settles_drop whole).outcome sane.work.sound.distinct) ?_)
  refine safe_of_ok (Machine.outcome_newScope_block _) ?_
  have dropped := (sane.drop whole unselected (by rw [kind]; rfl) sane.symbols).pushed
  exact { dropped with
    blocks := by
      intro b hb
      rcases List.mem_append.1 hb with hb | hb
      · exact dropped.blocks b hb
      · obtain rfl := List.mem_singleton.1 hb
        exact ⟨brace, Nat.succ_pos _⟩ }

theorem closeBlock_safe (sane : m.Sane p n) (whole : f.cells = m.work.line.cells)
    (unselected : m.work.selected = none) (kind : f.cell.token.kind = .closeBrace) :
    (closeBlock f).Safe m fun _ m' => m'.Sane p n := by
  have closed := sane.drop whole unselected (by rw [kind]; rfl) sane.symbols.pop
  unfold closeBlock
  refine .next (outcome_get m) (.next ((settles_drop whole).outcome sane.work.sound.distinct) ?_)
  refine .next (outcome_setSymbols _ _) (.next (outcome_emit _ _) ?_)
  split
  · exact nextIteration_safe balanced bounded closed
  · split
    · exact safe_of_ok (outcome_pure _ _) closed
    · split
      · split
        · exact safe_fail _ _
        · exact endCall_safe closed .null _
      · exact safe_of_ok (outcome_pure _ _) closed

theorem conclude_safe (sane : m.Sane p n) (result : Option Token) :
    (conclude result).Safe m fun _ m' => m'.Sane p n := by
  unfold conclude
  refine .next (outcome_get m) ?_
  split
  · split
    · exact obeySignal_safe balanced bounded sane _ _
    · exact sane.goToLine balanced.loaded bounded _
  · exact testLoop_safe balanced bounded sane
  · exact testLoop_safe balanced bounded sane
  · exact decideLoop_safe balanced bounded sane result

end Action

end LineScript
