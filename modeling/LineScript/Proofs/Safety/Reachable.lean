import Mathlib.Algebra.Group.Int.Defs
import Mathlib.Algebra.Group.Nat.Defs
import LineScript.Proofs.Nesting.InStep
import LineScript.Proofs.Safety.Calls

/-!
# Runs without faults

Every step of a sane machine leads to a sane machine or stops with an error of the script, so no run
of a program that was loaded faults: each reference that a step looks up or edits is in its line,
and no count of brackets or blocks is lowered from zero.  What this rests on is read off in
`Machine.Intact`: all that the machine refers to is linked where it will be looked for, scopes are
closed within the bindings, and references and priorities stay in the range of 32 bits.
-/

namespace LineScript

variable {m m' : Machine} {p : Program} {n : Nat} {f : Focus}

/-!
## One step
-/

theorem Action.choice?_linked {w : Work} {r : Ref} (picked : choice? w = some r) :
    ∃ f, w.line.focus? r = some f := by
  simp only [choice?, Option.orElse_eq_orElse, Option.orElse_eq_or, Option.or_eq_some_iff] at picked
  rcases picked with selected | ⟨-, highest⟩
  · obtain ⟨-, found⟩ := Option.filter_eq_some_iff.1 selected
    cases focus : w.line.focus? r with
    | none => simp [focus] at found
    | some f => exact ⟨f, rfl⟩
  · cases cells : w.line.cells with
    | nil => simp [Line.highest?, cells] at highest
    | cons c cs =>
        cases focus : w.line.focus? r with
        | some f => exact ⟨f, rfl⟩
        | none =>
            exfalso
            refine Line.focus?_eq_none_iff.1 focus ?_
            by_cases brace : c.token.kind.isScopeBracket = true
            · simp only [Line.highest?, cells, brace, if_true, Option.some.injEq] at highest
              simp [Line.refs, cells, highest]
            · obtain ⟨f, whole, -, top⟩ := Line.exists_chosen (l := w.line) (by rw [cells]; rfl)
                (by simpa using brace)
              rw [highest] at top
              rw [Option.some.inj top, Line.refs, ← whole]
              simp [Focus.cells]

theorem Work.Stems.unselect {w : Work} (stems : w.Stems p n) :
    ({ w with selected := none } : Work).Stems p n :=
  { stems with selected := nofun }

namespace Action

variable (balanced : p.Balanced) (bounded : p.Bounded n)

include balanced bounded

theorem applyKeyword_safe (sane : m.Sane p n) (whole : f.cells = m.work.line.cells)
    (unselected : m.work.selected = none) {keyword : Keyword}
    (kind : f.cell.token.kind = .keyword keyword) :
    (applyKeyword f keyword).Safe m fun _ m' => m'.Sane p n := by
  cases keyword with
  | «if» => exact branch_safe balanced bounded sane whole kind
  | «else» => exact passElse_safe balanced bounded sane whole kind
  | «while» => exact startWhile_safe balanced bounded sane whole kind
  | «for» => exact startFor_safe balanced bounded sane whole kind
  | goto => exact jumpToLabel_safe balanced bounded sane
  | goback => exact jumpBack_safe balanced bounded sane
  | define => exact define_safe balanced bounded sane whole kind
  | «return» => exact giveBack_safe sane
  | system => exact callBuiltin_safe sane whole unselected kind
  | «break» => exact markSignal_safe sane unselected .break
  | «continue» => exact markSignal_safe sane unselected .continue

theorem perform_safe (sane : m.Sane p n) (whole : f.cells = m.work.line.cells)
    (unselected : m.work.selected = none) : (perform f).Safe m fun _ m' => m'.Sane p n := by
  unfold perform
  split
  · rename_i kind
    exact openBlock_safe balanced sane whole unselected kind
  · rename_i kind
    exact closeBlock_safe balanced bounded sane whole unselected kind
  · rename_i b notScope kind
    refine applyParen_safe sane whole unselected notScope kind ?_
    intro inner close rest split isCall
    subst isCall
    exact beginCall_safe balanced bounded sane whole unselected kind split
  · rename_i op kind
    split
    · exact assign_safe sane whole unselected kind
    · split
      · exact applyUnary_safe sane whole unselected kind
      · exact applyBinary_safe sane whole unselected kind
  · rename_i type kind
    exact declare_safe sane whole unselected kind
  · rename_i template kind
    exact expandTemplate_safe sane whole unselected kind
  · rename_i keyword kind
    exact applyKeyword_safe balanced bounded sane whole unselected kind
  · exact safe_raise _

theorem act_safe (sane : m.Sane p n) (whole : f.cells = m.work.line.cells)
    (unselected : m.work.selected = none) : (act f).Safe m fun _ m' => m'.Sane p n := by
  unfold act
  simp only
  split
  · split
    · exact safe_raise _
    · rename_i alone
      obtain ⟨after, before⟩ : f.after = [] ∧ f.before = [] := by
        simpa [Focus.next?, Focus.prev?] using alone
      refine .next (Machine.outcome_remove_alone whole before after) ?_
      exact conclude_safe balanced bounded (sane.cleared unselected m.sink) _
  · refine .next (outcome_get m) (.next (outcome_emit _ m) ?_)
    exact perform_safe balanced bounded sane whole unselected

theorem step_safe (sane : m.Sane p n) : step.Safe m fun _ m' => m'.Sane p n := by
  unfold step
  refine .next (outcome_get m) ?_
  split
  · exact safe_of_ok (outcome_pure _ m) sane
  · split
    · exact conclude_safe balanced bounded sane none
    · refine .next (outcome_modify _ m) ?_
      have ready : ({ m with work := { m.work with selected := none } } : Machine).Sane p n :=
        sane.withWork sane.work.unselect sane.nextRef_le
      cases picked : choice? m.work with
      | none => exact conclude_safe balanced bounded ready none
      | some r =>
          obtain ⟨f, found⟩ := choice?_linked picked
          obtain rfl := Line.ref_focus? found
          have focus := Line.focus_eq_ok sane.work.sound.distinct (Line.cells_focus? found)
          exact .fault focus (act_safe balanced bounded ready (Line.cells_focus? found) rfl)

end Action

/-!
## Whole runs
-/

namespace Machine

theorem Sane.step_noFault (sane : m.Sane p n) (balanced : p.Balanced) (bounded : p.Bounded n)
    (fault : Fault) : m.step.result ≠ .error (.fault fault) := by
  intro faulted
  refine (Action.step_safe balanced bounded sane).1 fault ?_
  rw [Action.outcome, show (Action.step m).result = .error (.fault fault) from faulted]
  rfl

theorem Sane.next (sane : m.Sane p n) (balanced : p.Balanced) (bounded : p.Bounded n)
    (step : m.next = .ok m') : m'.Sane p n := by
  obtain ⟨-, keeps⟩ := Action.step_safe balanced bounded sane
  exact keeps () m' (outcome_of_next rfl step)

theorem Sane.after (sane : m.Sane p n) (balanced : p.Balanced) (bounded : p.Bounded n) {k : Nat}
    (reached : m.after k = .ok m') : m'.Sane p n :=
  after_induction (P := fun m => m.Sane p n) reached sane fun _ _ sane₁ step =>
    sane₁.next balanced bounded step

theorem sane_initial (p : Program) (n : Nat) (settings : Settings) :
    (Machine.initial p settings).Sane p n where
  program := rfl
  work := Work.stems_empty p n
  calls := nofun
  loops := nofun
  functions := nofun
  blocks := nofun
  symbols := Symbols.wellFormed_empty
  ids := Nat.le_refl _
  drawn := by
    intro line member
    obtain rfl := List.mem_singleton.1 member
    exact Nat.zero_le _

theorem sane_start (loaded : p.Loaded) (bounded : p.Bounded n) (settings : Settings) :
    (Machine.start p settings).machine.Sane p n := by
  obtain ⟨never, keeps⟩ := (sane_initial p n settings).goToLine loaded bounded 0
  obtain ⟨m, ran⟩ : ∃ m, (Action.goToLine 0).outcome (Machine.initial p settings) =
    .ok ((), m) := by
    cases found : p.lines[0]? with
    | none => exact ⟨_, outcome_goToLine_past found⟩
    | some line => exact ⟨_, outcome_goToLine found⟩
  rw [Machine.start, Action.machine_of_outcome ran]
  exact keeps () m ran

theorem sane_after {source : String} (loaded : Program.load source = .ok p) (settings : Settings)
    (nests : p.NestsBelow n) {k : Nat} (reached :
    (Machine.start p settings).machine.after k = .ok m) :
    m.Sane p n := by
  have balanced := Program.balanced_of_load loaded
  have bounded := Program.bounded_of_load loaded nests
  exact (sane_start balanced.loaded bounded settings).after balanced bounded reached

/-!
## What is within bounds
-/

/-- What a machine holds for later is within the lines, the bindings and the 32 bits that it is used
with. -/
structure Intact (m : Machine) : Prop where
  /-- Keywords and braces are looked up in the program line that the working line was
  copied from. -/
  working : ∀ c ∈ m.work.line.cells, c.token.kind.isAnchor = true →
    m.program.Linked (m.positionOf c)
  selected : ∀ r, m.work.selected = some r → r ∈ m.work.line.refs
  /-- A return looks for both ends of the call in the line of the caller. -/
  calls : ∀ c ∈ m.calls, [c.nameRef, c.closeRef].Sublist c.saved.line.refs
  bodies : ∀ e, (∃ c ∈ m.calls, e = c.function.body) ∨ (∃ l ∈ m.loops, e = l.body) ∨
    (∃ f ∈ m.functions.all, e = f.body) → m.program.Linked e.opening ∧ m.program.Linked e.closing
  headers : ∀ l ∈ m.loops, ∀ part, l.init = some part ∨ l.condition = some part ∨
    l.step = some part →
    ∃ line, m.program.lines[l.header]? = some line ∧ line.Spans part
  blocks : ∀ b ∈ m.blocks, m.program.Linked b.brace ∧ 0 < b.depth
  /-- Scopes are closed one by one, and one that was just opened may be closed at once. -/
  marks : ∀ s, s = m.symbols ∨ s = m.symbols.push →
    ∀ k, ∀ mark ∈ (Symbols.popMany k s).marks, mark ≤ (Symbols.popMany k s).size
  /-- The references of a line name one cell each, and there is one left for a new cell. -/
  sound : ∀ line ∈ m.lines, line.Sound
  refs : ∀ line ∈ m.lines, line.nextRef < 2 ^ 32
  priorities : ∀ line ∈ m.lines, ∀ c ∈ line.cells,
    -2 ^ 31 ≤ c.token.priority ∧ c.token.priority < 2 ^ 31

end Machine

theorem Program.IsBlock.linked {e : Extent} (block : p.IsBlock e) (balanced : p.Balanced) :
    p.Linked e.opening ∧ p.Linked e.closing := by
  obtain ⟨close, ends⟩ := block.ends balanced
  exact ⟨block.brace.linked, ends.linked⟩

theorem Work.Stems.priorities {w : Work} (stems : w.Stems p (2 ^ 20)) {c : Cell}
    (member : c ∈ w.line.cells) : -2 ^ 31 ≤ c.token.priority ∧ c.token.priority < 2 ^ 31 := by
  obtain ⟨s, fits⟩ := stems.fits.of_mem member
  have low := fits.low
  have high := fits.high
  have top := c.token.kind.ceiling_le
  simp only [Priority.inert, Priority.boost, Priority.additive] at low high top
  omega

theorem Call.LinkedIn.ends {c : Call} (linked : c.LinkedIn p n) :
    [c.nameRef, c.closeRef].Sublist c.saved.line.refs := by
  obtain ⟨before, name, opening, args, close, after, cells, nameRef, closeRef, -⟩ := linked.site
  have ends : [name, close].Sublist c.saved.line.cells := by
    rw [cells]
    refine (List.Sublist.cons_cons name (.cons opening ?_)).trans
      (List.sublist_append_right before _)
    exact List.singleton_sublist.2 (by simp)
  have refs := ends.map Cell.ref
  rwa [List.map_cons, List.map_cons, nameRef, closeRef] at refs

namespace Machine

theorem Sane.line_sound (sane : m.Sane p n) : ∀ line ∈ m.lines, line.Sound := by
  intro line member
  rcases List.mem_cons.1 member with rfl | member
  · exact sane.work.sound
  · obtain ⟨call, called, rfl⟩ := List.mem_map.1 member
    exact (sane.calls call called).stems.sound

theorem Sane.intact (sane : m.Sane p (2 ^ 20)) (balanced : p.Balanced) (few : m.nextId < 2 ^ 32) :
    m.Intact where
  working := by
    intro c hc anchor
    obtain ⟨line, d, found, hd, ref, -⟩ := sane.work.anchors c hc anchor
    rw [sane.program, positionOf, ← ref]
    exact Program.linked_of_mem found hd
  selected := by
    intro r picked
    obtain ⟨c, rest, cells, ref, -⟩ := sane.work.selected r picked
    simp [Line.refs, cells, ref]
  calls := fun c hc => (sane.calls c hc).ends
  bodies := by
    rw [sane.program]
    rintro e (⟨c, hc, rfl⟩ | ⟨l, hl, rfl⟩ | ⟨f, hf, rfl⟩)
    · exact (sane.calls c hc).body.linked balanced
    · exact (sane.loops l hl).body.linked balanced
    · exact (sane.functions f hf).linked balanced
  headers := by
    rw [sane.program]
    exact fun l hl => (sane.loops l hl).parts
  blocks := by
    rw [sane.program]
    exact fun b hb => ⟨(sane.blocks b hb).1.linked, (sane.blocks b hb).2⟩
  marks := by
    rintro s (rfl | rfl) k
    · exact (sane.symbols.popMany k).bounded
    · exact (sane.symbols.push.popMany k).bounded
  sound := sane.line_sound
  refs := fun line member => Nat.lt_of_le_of_lt (sane.drawn line member) few
  priorities := by
    intro line member c hc
    rcases List.mem_cons.1 member with rfl | member
    · exact sane.work.priorities hc
    · obtain ⟨call, called, rfl⟩ := List.mem_map.1 member
      exact (sane.calls call called).stems.priorities hc

/-- No step of a run of a loaded script faults, and all that its machine refers to is there. -/
theorem never_faults {source : String} (loaded : Program.load source = .ok p)
    (shallow : p.NestsBelow (2 ^ 20)) (settings : Settings) {k : Nat}
    (reached : (Machine.start p settings).machine.after k = .ok m) (few : m.nextId < 2 ^ 32) :
    (∀ fault, m.step.result ≠ .error (.fault fault)) ∧ m.Intact := by
  have balanced := Program.balanced_of_load loaded
  have sane := sane_after loaded settings shallow reached
  exact ⟨sane.step_noFault balanced (Program.bounded_of_load loaded shallow),
    sane.intact balanced few⟩

def markScript : String :=
  "def string mark(int n) \x7b
for (int i = 0; i < n; i += 1) \x7b\nif i == 1 \x7b\ngoto out\n\x7d\n\x7d
@out\nreturn f\"<\x7bn\x7d>\"\n\x7d\nstring s = mark(2) + \"!\""

theorem never_faults_markScript :
    Program.load markScript = .ok (programOf markScript) ∧
      (programOf markScript).NestsBelow (2 ^ 20) ∧ (stateOf markScript 23).nextId < 2 ^ 32 ∧
      (stateOf markScript 23).calls.length = 1 ∧ (stateOf markScript 23).loops.length = 1 ∧
      (stateOf markScript 23).blocks.length = 2 ∧
      (∀ fault, (stateOf markScript 23).step.result ≠ .error (.fault fault)) ∧
      (stateOf markScript 23).Intact := by
  have checked : (Program.load markScript).toOption.isSome = true ∧
      (programOf markScript).NestsBelow (2 ^ 20) ∧
      ((Machine.start (programOf markScript) {}).machine.after 23).toOption.isSome = true ∧
      (stateOf markScript 23).nextId < 2 ^ 32 ∧ (stateOf markScript 23).calls.length = 1 ∧
      (stateOf markScript 23).loops.length = 1 ∧ (stateOf markScript 23).blocks.length = 2 := by
    decide +kernel
  obtain ⟨isSome, shallow, runs, few, calls, loops, blocks⟩ := checked
  have loaded : Program.load markScript = .ok (programOf markScript) := Except.eq_ok_getD isSome _
  have reached : (Machine.start (programOf markScript) {}).machine.after 23 =
      .ok (stateOf markScript 23) := Except.eq_ok_getD runs _
  exact ⟨loaded, shallow, few, calls, loops, blocks, never_faults loaded shallow {} reached few⟩

end Machine

end LineScript
