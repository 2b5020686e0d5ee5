import LineScript.Proofs.Safety.Invariant

/-!
# Reductions of sane machines

What a token of an expression does to a line: a value takes the place of some cells, cells are
dropped, or a template is expanded.  None of this faults, and it leaves a sane machine.
-/

namespace LineScript

theorem TokenKind.isParen_of_isOperand {k : TokenKind} (operand : k.isOperand = true) :
    k.isParen = false := by
  cases k with
  | literal _ => rfl
  | name _ => rfl
  | _ => cases operand

theorem Action.assignmentTarget?_append {cells before : List Cell} {name : String}
    {declared : Option ValueType} (target : assignmentTarget? cells =
    some (name, declared, before)) :
    ∃ used, cells = used ++ before ∧ ∀ c ∈ used, c.token.kind.isParen = false := by
  cases cells with
  | nil => cases target
  | cons x rest =>
      rw [assignmentTarget?] at target
      split at target
      · rename_i kind
        have plain : x.token.kind.isParen = false := by rw [kind]; rfl
        split at target
        · cases target
          exact ⟨[x], rfl, by simpa using plain⟩
        · rename_i c rest'
          split at target
          · rename_i type kindC
            cases target
            refine ⟨[x, c], rfl, ?_⟩
            have plainC : c.token.kind.isParen = false := by rw [kindC]; rfl
            simpa using ⟨plain, plainC⟩
          · cases target
            exact ⟨[x], rfl, by simpa using plain⟩
      · cases target

namespace Machine.Sane

variable {m : Machine} {p : Program} {n : Nat} {f : Focus}

theorem answer (sane : m.Sane p n) (unselected : m.work.selected = none)
    {before used after cells : List Cell} (whole : m.work.line.cells = before ++ used ++ after)
    (level : ∀ s, Line.parensOver s used = s) (member : f.cell ∈ used) (value : Value)
    {symbols : Symbols} (formed : symbols.WellFormed) (sink : Sink)
    (made : cells =
      before ++ { f.cell with token := .literal value m.nextId f.cell.token.line } :: after) :
    ({ m with
      work := { m.work with line := m.work.line.withCells cells }
      symbols
      nextId := m.nextId + 1
      sink } : Machine).Sane p n := by
  rw [made]
  exact sane.reduce (sane.work.answer unselected whole level member value m.nextId) formed
    (Nat.le_succ _) (Nat.le_succ_of_le sane.nextRef_le)

theorem withCells (sane : m.Sane p n) {cells : List Cell}
    (stems : ({ m.work with line := m.work.line.withCells cells } : Work).Stems p n)
    {symbols : Symbols} (formed : symbols.WellFormed) (sink : Sink) :
    ({ m with
      work := { m.work with line := m.work.line.withCells cells }
      symbols
      sink } : Machine).Sane p n :=
  sane.reduce stems formed (Nat.le_refl _) sane.nextRef_le

theorem drop (sane : m.Sane p n) (whole : f.cells = m.work.line.cells)
    (unselected : m.work.selected = none) (plain : f.cell.token.kind.isParen = false)
    {symbols : Symbols} (formed : symbols.WellFormed) :
    ({ m with
      work := { m.work with line := m.work.line.withCells (f.before.reverse ++ f.after) }
      symbols } : Machine).Sane p n := by
  have cells : m.work.line.cells = f.before.reverse ++ [f.cell] ++ f.after := by
    simp [← whole, Focus.cells]
  have fits := sane.work.fits
  rw [cells] at fits
  refine sane.withCells ?_ formed m.sink
  have made := sane.work.splice unselected cells [] (List.nil_sublist _)
    (fits.splice ?_ ?_) (by simp)
  · simpa using made
  · intro s
    rw [Line.parensOver_cons, Cell.parensAfter_of_not_isParen plain]
  · exact fun _ _ => trivial

/-- The token in focus is replaced by operands and additions with new references. -/
theorem expand (sane : m.Sane p n) (whole : f.cells = m.work.line.cells)
    (unselected : m.work.selected = none) (own : f.cell.token.kind.isParen = false)
    (chain : List Cell) (refs : chain.map Cell.ref = List.range' m.work.line.nextRef chain.length)
    (plain : ∀ c ∈ chain, c.token.kind.isOperand = true ∨ c.token.kind = .operator .add)
    (fine : ∀ s, f.cell.Fits n s → ∀ c ∈ chain, c.Fits n s) :
    ({ m with
      nextId := m.nextId + chain.length
      work :=
        { m.work with
          line :=
            { cells := f.before.reverse ++ chain ++ f.after
              nextRef := m.work.line.nextRef + chain.length } } } : Machine).Sane p n := by
  have parenless : ∀ c ∈ chain, c.token.kind.isParen = false := by
    intro c hc
    rcases plain c hc with operand | add
    · exact TokenKind.isParen_of_isOperand operand
    · rw [add]
      rfl
  have cells : m.work.line.cells = f.before.reverse ++ [f.cell] ++ f.after := by
    simp [← whole, Focus.cells]
  have fits := sane.work.fits
  rw [cells] at fits
  refine sane.reduce (sane.work.edit unselected (Action.sound_chain sane.work.sound whole refs)
    (fits.splice (fun s => ?_) fun s inside => ?_) ?_)
    sane.symbols (Nat.le_add_right _ _) (Nat.add_le_add_right sane.nextRef_le _)
  · rw [Line.parensOver_of_plain parenless, Line.parensOver_of_plain (by simpa using own)]
  · exact (Line.along_of_plain parenless).2 (fine s inside.1)
  · intro c hc anchor
    simp only [List.mem_append, List.mem_reverse] at hc
    rcases hc with (hc | hc) | hc
    · exact ⟨c, by simp [cells, hc], rfl, rfl⟩
    · rcases plain c hc with operand | add
      · cases h : c.token.kind <;> simp [h, TokenKind.isOperand, TokenKind.isAnchor]
          at operand anchor
      · rw [add] at anchor
        cases anchor
    · exact ⟨c, by simp [cells, hc], rfl, rfl⟩

theorem cleared (sane : m.Sane p n) (unselected : m.work.selected = none) (sink : Sink) :
    ({ m with work := { m.work with line := m.work.line.withCells [] }, sink } :
      Machine).Sane p n := by
  refine sane.withCells ?_ sane.symbols sink
  exact sane.work.edit unselected (sane.work.sound.withCells (List.nil_sublist _)) trivial nofun

end Machine.Sane

namespace Action

variable {m : Machine} {p : Program} {n : Nat} {f : Focus}

theorem applyBinary_safe (sane : m.Sane p n) (whole : f.cells = m.work.line.cells)
    (unselected : m.work.selected = none) {op : Operator}
    (kind : f.cell.token.kind = .operator op) :
    (applyBinary f op).Safe m fun _ m' => m'.Sane p n := by
  unfold applyBinary leftOperand rightOperand
  refine .operand fun x prev operandX => .operand fun y next operandY => ?_
  refine .value fun a _ => .value fun b _ => .cause fun v _ => ?_
  refine .next (outcome_emit _ m) ?_
  refine safe_of_ok ((settles_between whole prev next v).outcome sane.work.sound.distinct) ?_
  have cells : m.work.line.cells = f.before.tail.reverse ++ [x, f.cell, y] ++ f.after.tail := by
    rw [← whole, Focus.cells, Focus.eq_of_prev? prev, Focus.eq_of_next? next]
    simp
  have plain : f.cell.token.kind.isParen = false := by rw [kind]; rfl
  refine sane.answer unselected cells (fun s => Line.parensOver_of_plain ?_)
    (by simp) v sane.symbols _
    rfl
  simp [TokenKind.isParen_of_isOperand operandX, TokenKind.isParen_of_isOperand operandY, plain]

theorem waitsBelow?_bounds {op : Operator} {priority : Int}
    (fits : ∀ c ∈ f.after, c.token.kind = .operator .pow → 0 ≤ c.token.priority)
    (waits : waitsBelow? f op = some priority) :
    op = .negate ∧ -1 ≤ priority ∧ priority ≤ f.cell.token.priority := by
  unfold waitsBelow? at waits
  split at waits
  · rename_i negate
    obtain ⟨power, found, lower⟩ := Option.bind_eq_some_iff.1 waits
    have positive : 0 ≤ power := by
      unfold powerAfter? at found
      split at found
      · rename_i next _ after
        split at found
        · rename_i kind
          cases found
          exact fits next (by simp [after]) kind
        · cases found
      · cases found
    split at lower
    · cases lower
      exact ⟨negate, by omega, by omega⟩
    · cases lower
  · cases waits

theorem applyUnary_safe (sane : m.Sane p n) (whole : f.cells = m.work.line.cells)
    (unselected : m.work.selected = none) {op : Operator}
    (kind : f.cell.token.kind = .operator op) :
    (applyUnary f op).Safe m fun _ m' => m'.Sane p n := by
  have plain : f.cell.token.kind.isParen = false := by rw [kind]; rfl
  unfold applyUnary rightOperand
  refine .operand fun y next operandY => ?_
  split
  · rename_i priority waits
    refine .next (outcome_emit _ m) ?_
    refine safe_of_ok ((settles_wait whole priority).outcome sane.work.sound.distinct) ?_
    obtain ⟨rfl, low, high⟩ := waitsBelow?_bounds (fun c hc kind => by
      obtain ⟨_, fits⟩ := sane.work.fits.of_mem (c := c) (by simp [← whole, Focus.cells, hc])
      exact fits.power kind) waits
    have cells : m.work.line.cells = f.before.reverse ++ [f.cell] ++ f.after := by
      simp [← whole, Focus.cells]
    have fits := sane.work.fits
    rw [cells] at fits
    have made := sane.work.splice unselected cells
      [{ f.cell with token := { f.cell.token with priority } }] (by simp)
      (fits.splice (fun s => ?_) fun s inside => ?_) (by simp [kind, TokenKind.isAnchor])
    · refine sane.withCells ?_ sane.symbols m.sink
      simpa [Focus.cells] using made
    · rw [Line.parensOver_of_plain (by simpa using plain),
        Line.parensOver_of_plain (by simpa using plain)]
    · refine ⟨inside.1.replace plain ?_ ?_ ?_, trivial⟩
      · show Priority.inert ≤ priority
        simp only [Priority.inert]
        omega
      · exact Int.sub_le_sub_right high _
      · intro power
        rw [show f.cell.token.kind = .operator .pow from power] at kind
        cases kind
  · refine .value fun a _ => .cause fun v _ => ?_
    refine safe_of_ok ((settles_before whole next v).outcome sane.work.sound.distinct) ?_
    have cells : m.work.line.cells = f.before.reverse ++ [f.cell, y] ++ f.after.tail := by
      rw [← whole, Focus.cells, Focus.eq_of_next? next]
      simp
    refine sane.answer unselected cells (fun s => Line.parensOver_of_plain ?_) (by simp) v
      sane.symbols _ rfl
    simp [TokenKind.isParen_of_isOperand operandY, plain]

theorem assigned_formed {symbols symbols' : Symbols} {op : Operator} {name : String}
    {declared : Option ValueType} {value : Value} (formed : symbols.WellFormed)
    (made : assigned symbols op name declared value = .ok symbols') : symbols'.WellFormed := by
  unfold assigned at made
  split at made
  · split at made
    · cases made
    · exact formed.add made
  · split at made
    · exact formed.update made
    · exact formed.add made

theorem assign_safe (sane : m.Sane p n) (whole : f.cells = m.work.line.cells)
    (unselected : m.work.selected = none) {op : Operator}
    (kind : f.cell.token.kind = .operator op) :
    (assign f op).Safe m fun _ m' => m'.Sane p n := by
  unfold assign rightOperand
  split
  · exact safe_fail _ _
  · rename_i name declared before target
    obtain ⟨used, onLeft, plain⟩ := assignmentTarget?_append target
    refine .operand fun y next operandY => .value fun v _ => .next (outcome_get m) ?_
    -- A compound assignment applies its operation first; the rest is the same for all.
    have finish : ∀ w, (do
        let symbols ← ofCause f.cell.token.line (assigned m.symbols op name declared w)
        setSymbols symbols
        emit (.assigned name w)
        if declared.isSome then removeEach (f.before.tail.take 1)
        Action.answer f.cell.ref w
        removeEach (f.before.take 1)
        remove y.ref : Action Unit).Safe m fun _ m' => m'.Sane p n := by
      intro w
      refine .cause fun symbols made => .next (outcome_setSymbols _ m) (.next (outcome_emit _ _) ?_)
      refine safe_of_ok ((settles_assigned (m := { m with symbols }) whole target next w).outcome
        sane.work.sound.distinct) ?_
      have cells : m.work.line.cells =
          before.reverse ++ (used.reverse ++ [f.cell, y]) ++ f.after.tail := by
        rw [← whole, Focus.cells, onLeft, Focus.eq_of_next? next]
        simp
      refine sane.answer unselected cells (fun s => Line.parensOver_of_plain ?_) (by simp) w
        (assigned_formed sane.symbols made) _ rfl
      intro c hc
      simp only [List.mem_append, List.mem_reverse, List.mem_cons, List.not_mem_nil, or_false] at hc
      rcases hc with hc | rfl | rfl
      · exact plain c hc
      · rw [kind]
        rfl
      · exact TokenKind.isParen_of_isOperand operandY
    cases op.operation? with
    | none => exact .next (outcome_pure _ m) (finish v)
    | some base => exact .cause fun w _ => finish w

theorem declare_safe (sane : m.Sane p n) (whole : f.cells = m.work.line.cells)
    (unselected : m.work.selected = none) {type : ValueType}
    (kind : f.cell.token.kind = .type type) :
    (declare f type).Safe m fun _ m' => m'.Sane p n := by
  unfold declare
  split
  · refine .next (outcome_get m) (.cause fun symbols made => .next (outcome_setSymbols _ m) ?_)
    refine safe_of_ok ((settles_drop (m := { m with symbols }) whole).outcome
      sane.work.sound.distinct) ?_
    exact sane.drop whole unselected (by rw [kind]; rfl) (sane.symbols.add made)
  · exact safe_raise _

theorem priority_chainCells {line id : Nat} {priority : Int} {r : Ref} {kinds : List TokenKind}
    {c : Cell} (member : c ∈ chainCells line priority r id kinds) :
    c.token.priority = match c.token.kind with
      | .operator _ => priority
      | k => k.basePriority := by
  induction kinds generalizing r id with
  | nil => cases member
  | cons k kinds ih =>
      rcases List.mem_cons.1 member with rfl | member
      · cases k <;> rfl
      · exact ih member

theorem fits_chainCells {line id : Nat} {r : Ref} {template : String}
    {segments : List Template.Segment} {c d : Cell} {s : List OpenParen}
    (kind : d.token.kind = .template template) (fits : d.Fits n s)
    (member : c ∈ chainCells line
      (Priority.additive + (d.token.priority - Priority.template) + Priority.boost) r id
      (Template.expansion segments)) : c.Fits n s := by
  have priority := priority_chainCells member
  have among : c.token.kind ∈ Template.expansion segments := by
    rw [← map_kind_chainCells line _ r id (Template.expansion segments)]
    exact List.mem_map_of_mem member
  have low := fits.low
  have ceiling : d.token.kind.ceiling = Priority.template := by rw [kind]; rfl
  rcases mem_expansion among with operand | add
  · have base : c.token.priority = Priority.inert := by
      cases h : c.token.kind <;> simp [h, TokenKind.isOperand] at operand <;>
        simpa [h, TokenKind.basePriority] using priority
    have top : c.token.kind.ceiling = Priority.additive + Priority.boost := by
      cases h : c.token.kind <;> simp [h, TokenKind.isOperand] at operand <;> rfl
    refine fits.replace (TokenKind.isParen_of_isOperand operand) (by omega) ?_ ?_
    · rw [base, top, ceiling]
      simp only [Priority.inert, Priority.template, Priority.additive, Priority.boost] at low ⊢
      omega
    · intro power
      rw [power] at operand
      cases operand
  · rw [add] at priority
    simp only [Priority.inert, Priority.template, Priority.additive, Priority.boost] at low priority
    refine fits.replace (by rw [add]; rfl) ?_ ?_ (by simp [add])
    · simp only [Priority.inert]
      omega
    · rw [ceiling, add]
      simp only [TokenKind.ceiling, Priority.template, Priority.additive, Priority.boost]
      omega

theorem expandTemplate_safe (sane : m.Sane p n) (whole : f.cells = m.work.line.cells)
    (unselected : m.work.selected = none) {template : String}
    (kind : f.cell.token.kind = .template template) :
    (expandTemplate f template).Safe m fun _ m' => m'.Sane p n := by
  unfold expandTemplate
  refine .cause fun segments _ => ?_
  refine safe_of_ok ((settles_expanded whole _ _).outcome sane.work.sound) ?_
  let chain := chainCells f.cell.token.line
    (Priority.additive + (f.cell.token.priority - Priority.template) + Priority.boost)
    m.work.line.nextRef m.nextId (Template.expansion segments)
  have kinds : chain.map (fun c => c.token.kind) = Template.expansion segments :=
    map_kind_chainCells _ _ _ _ _
  have length : chain.length = (Template.expansion segments).length := by
    rw [← kinds, List.length_map]
  have refs : chain.map Cell.ref = List.range' m.work.line.nextRef chain.length := by
    rw [length]
    exact map_ref_chainCells _ _ _ _ _
  have made := sane.expand whole unselected (by rw [kind]; rfl) chain refs
    (fun c hc => mem_expansion (kinds ▸ List.mem_map_of_mem hc))
    (fun s fits c hc => fits_chainCells kind fits hc)
  rw [length] at made
  exact made

theorem builtinArguments_noFault (cells : List Cell) (fault : Fault) :
    builtinArguments m cells ≠ .error (.fault fault) := by
  induction cells with
  | nil => rintro ⟨⟩
  | cons c cells ih =>
      rw [builtinArguments]
      split
      · exact ih
      · split
        · cases value : m.valueOf c.token with
          | error stop =>
              rintro ⟨⟩
              exact m.valueOf_noFault c.token fault value
          | ok v =>
              cases more : builtinArguments m cells with
              | error stop =>
                  rintro ⟨⟩
                  exact ih more
              | ok r => rintro ⟨⟩
        · rintro ⟨⟩

theorem callBuiltin_safe (sane : m.Sane p n) (whole : f.cells = m.work.line.cells)
    (unselected : m.work.selected = none) (kind : f.cell.token.kind = .keyword .system) :
    (callBuiltin f).Safe m fun _ m' => m'.Sane p n := by
  unfold callBuiltin
  split
  · exact safe_raise _
  · rename_i target following after
    split
    · exact safe_raise _
    · rename_i name named
      refine .next (outcome_get m) (.except (builtinArguments_noFault following) ?_)
      rintro ⟨args, rest⟩ read
      obtain ⟨used, same, plain⟩ := builtinArguments_append read
      refine .next (outcome_modify _ m) (.cause fun result _ => .next (outcome_emit _ _) ?_)
      cases result with
      | none => exact safe_of_ok rfl (sane.cleared unselected _)
      | some value =>
          refine safe_of_ok ((settles_read
            (m := { m with sink := (Builtin.run name m.properties args m.sink).1 }) whole after same
            value).outcome sane.work.sound.distinct) ?_
          have cells : m.work.line.cells =
              f.before.reverse ++ (f.cell :: target :: used) ++ rest := by
            rw [← whole, Focus.cells, after, same]
            simp
          refine sane.answer unselected cells (fun s => Line.parensOver_of_plain ?_)
            (List.mem_cons_self ..) value sane.symbols _ rfl
          intro c hc
          simp only [List.mem_cons] at hc
          rcases hc with rfl | rfl | hc
          · rw [kind]
            rfl
          · cases h : c.token.kind <;> simp [h, builtinName?] at named <;> rfl
          · rcases plain c hc with operand | comma
            · exact TokenKind.isParen_of_isOperand operand
            · rw [comma]
              rfl

/-!
## Parentheses
-/

/-- A parenthesis that is no call is reached, or is reduced with what it encloses. -/
theorem applyParen_safe (sane : m.Sane p n) (whole : f.cells = m.work.line.cells)
    (unselected : m.work.selected = none) {b : Bracket} (round : b ≠ .scope)
    (kind : f.cell.token.kind = .bracket b .opening)
    (call : ∀ inner close rest, Line.splitClose? b 0 f.after = some (inner, close, rest) →
      b = .call → (beginCall f inner close).Safe m fun _ m' => m'.Sane p n) :
    (applyParen f b).Safe m fun _ m' => m'.Sane p n := by
  rw [applyParen, Line.enclosed_eq kind, ofFault_ok_bind]
  split
  · exact safe_fail _ _
  · rename_i inner close rest split
    have same : f.after = inner ++ close :: rest := (Line.splitClose?_append split).symm
    have fits := sane.work.fits
    rw [← whole, Focus.cells] at fits
    by_cases new : (!f.cell.token.expanded) = true
    · rw [if_pos new]
      have distinct := sane.work.sound.distinct
      refine safe_of_ok ((settles_reached whole same).outcome distinct)
        (sane.withCells ?_ sane.symbols m.sink)
      have boosted := fits.reach round kind (by simpa using new) split
      rw [Line.boostUntil_inner distinct whole same]
      refine sane.work.edit unselected (sane.work.sound.withCells ?_)
        (by simpa [Line.withCells] using boosted) ?_
      · rw [Line.refs, ← whole, Focus.cells, same]
        simp [Line.boostCell, Function.comp_def]
      · intro c hc _
        rw [← whole, Focus.cells, same]
        simp only [Line.withCells, List.mem_append, List.mem_cons, List.mem_reverse,
          List.mem_map] at hc
        rcases hc with hc | rfl | ⟨d, hd, rfl⟩ | rfl | hc
        · exact ⟨c, by simp [hc], rfl, rfl⟩
        · exact ⟨f.cell, by simp, rfl, rfl⟩
        · exact ⟨d, by simp [hd], rfl, rfl⟩
        · exact ⟨c, by simp, rfl, rfl⟩
        · exact ⟨c, by simp [hc], rfl, rfl⟩
    · rw [if_neg new]
      by_cases isCall : b = .call
      · rw [if_pos isCall]
        exact call inner close rest split isCall
      · rw [if_neg isCall]
        split
        · exact safe_fail _ _
        · rename_i c
          split
          · rename_i operand
            refine safe_of_ok ((settles_unwrapped whole same).outcome sane.work.sound.distinct)
              (sane.withCells ?_ sane.symbols m.sink)
            have cells : m.work.line.cells = f.before.reverse ++ [f.cell, c, close] ++ rest := by
              rw [← whole, Focus.cells, same]
              simp
            rw [same] at fits
            have made := sane.work.splice unselected cells [c] (by simp)
              ((show Line.Fits n [] (f.before.reverse ++ [f.cell, c, close] ++ rest) by
                simpa using fits).ungroup round kind (TokenKind.isParen_of_isOperand operand)
                (kind_splitClose? split)) ?_
            · simpa using made
            · intro d hd
              obtain rfl := List.mem_singleton.1 hd
              cases h : d.token.kind <;> simp [h, TokenKind.isOperand] at operand <;> rfl
          · exact safe_raise _
        · exact safe_raise _

end Action

end LineScript
