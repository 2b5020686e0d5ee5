import LineScript.Proofs.Placement.Steps

/-!
# Brace placement does not matter

Machines on two programs that differ in the placement of braces stay placed alike step by step
(`Placement.Placed.step`), so their runs print the same and end in the same way
(`same_runs_of_movesBraces`).
-/

namespace LineScript

/-- How the run of a script ends. -/
inductive RunEnding where
  | diverges
  | finishes (symbols : Symbols)
  | fails (kind : ErrorKind)

/-- The script loads, and its run ends in this way. -/
def ScriptEnds (source : String) (settings : Settings) : RunEnding → Prop
  | .diverges => ∀ fuel, ∃ m, runScript fuel source settings = .ok (m, none) ∧ m.finished = false
  | .finishes symbols => ∃ fuel m, runScript fuel source settings = .ok (m, none) ∧
      m.finished = true ∧ m.symbols = symbols
  | .fails kind => ∃ fuel m e, runScript fuel source settings =
      .ok (m, some (.error e)) ∧ e.kind = kind

/-- Two runs have printed the same, and both go on, both have finished with the same variables, or
both have failed with errors of one kind. -/
structure SameResult (r r' : Machine × Option Stop) : Prop where
  sink : r'.1.sink = r.1.sink
  stop : r.2 = none ∧ r'.2 = none ∧ r'.1.finished = r.1.finished ∧ r'.1.symbols = r.1.symbols ∨
    ∃ e e', r.2 = some (.error e) ∧ r'.2 = some (.error e') ∧ e'.kind = e.kind

theorem SameResult.complete {r r' : Machine × Option Stop} (same : SameResult r r') :
    SameResult (Machine.complete r) (Machine.complete r') := by
  obtain ⟨m, stop⟩ := r
  obtain ⟨m', stop'⟩ := r'
  obtain ⟨sink, ⟨rfl, rfl, finished, symbols⟩ | ⟨e, e', rfl, rfl, kind⟩⟩ := same
  · have stop' : (if m'.finished then m'.flush else none) =
      if m.finished then m.flush else none := by
      simp only [Machine.flush, show m'.sink = m.sink from sink,
        show m'.finished = m.finished from finished]
    have ends : (if m.finished then m.flush else none) = none ∨
        ∃ e, (if m.finished then m.flush else none) = some (.error e) := by
      unfold Machine.flush
      split
      · split
        · exact .inl rfl
        · exact .inr ⟨_, rfl⟩
      · exact .inl rfl
    rw [Machine.complete_ended, Machine.complete_ended, stop']
    rcases ends with none | ⟨e, failed⟩
    · exact ⟨sink, .inl ⟨none, none, finished, symbols⟩⟩
    · exact ⟨sink, .inr ⟨e, e, failed, failed, rfl⟩⟩
  · exact ⟨sink, .inr ⟨e, e', rfl, rfl, kind⟩⟩

namespace Placement

variable {p p' : Program} {place : Placement p.lines p'.lines} {m m' : Machine} {n n' : Nat}
  {stack : List Scope}

theorem Placed.run (placed : place.Placed m m') (base : Grounded p p' n n' m m')
    (balanced' : p'.Balanced)
    (bounded : p.Bounded n) (bounded' : p'.Bounded n') (nested : m.Nested p stack)
    (structured : p.BlockStructured) (jumpless : p.GotoFree) (fuel : Nat) :
    SameResult (m.run fuel) (m'.run fuel) := by
  induction fuel generalizing m m' stack with
  | zero => exact ⟨placed.sink, .inl ⟨rfl, rfl, placed.finished, placed.symbols⟩⟩
  | succ fuel ih =>
      have finished' := placed.finished
      cases running : m.finished with
      | true =>
          rw [running] at finished'
          rw [Machine.run_of_after (Machine.after_finished running _),
            Machine.run_of_after (Machine.after_finished finished' _)]
          exact ⟨placed.sink, .inl ⟨rfl, rfl, placed.finished, placed.symbols⟩⟩
      | false =>
          rw [running] at finished'
          rw [Machine.run_succ fuel running, Machine.run_succ fuel finished']
          cases placed.step base nested structured jumpless with
          | @ok _ _ k k' ran ran' placed =>
              have next : m.next = .ok k := by rw [Machine.next, ran]; rfl
              have next' : m'.next = .ok k' := by rw [Machine.next, ran']; rfl
              obtain ⟨stack', nested'⟩ :=
                (nested.steps base.balanced structured (nested.jumpsWell jumpless) next).nested
              have later : Grounded p p' n n' k k' :=
                { base with
                  sane := base.sane.next base.balanced bounded next
                  sane' := base.sane'.next balanced' bounded' next' }
              rw [next, next']
              exact ih placed later nested'
          | @error e e' ran ran' kind sink =>
              have next : m.next = .error (.error e) := by rw [Machine.next, ran]; rfl
              have next' : m'.next = .error (.error e') := by rw [Machine.next, ran']; rfl
              rw [next, next']
              exact ⟨sink, .inr ⟨e, e', rfl, rfl, kind⟩⟩
          | @fault fault ran =>
              exact absurd ran ((Action.step_safe base.balanced bounded base.sane).1 fault)

end Placement

/-- Results that are the same step by step lead to the same end. -/
theorem exists_ending {source source' : String} {settings : Settings}
    {r r' : Nat → Machine × Option Stop}
    (runs : ∀ fuel, runScript fuel source settings = .ok (r fuel))
    (runs' : ∀ fuel, runScript fuel source' settings = .ok (r' fuel))
    (same : ∀ fuel, SameResult (r fuel) (r' fuel)) :
    ∃ ending, ScriptEnds source settings ending ∧ ScriptEnds source' settings ending := by
  by_cases halts : ∃ fuel, (r fuel).2 ≠ none ∨ (r fuel).1.finished = true
  · obtain ⟨fuel, halts⟩ := halts
    have ran := runs fuel
    have ran' := runs' fuel
    obtain ⟨-, ⟨none, none', finished, symbols⟩ | ⟨e, e', failed, failed', kind⟩⟩ := same fuel
    · have done : (r fuel).1.finished = true := halts.resolve_left fun some => some none
      refine ⟨.finishes (r fuel).1.symbols, ⟨fuel, (r fuel).1, ?_, done, rfl⟩,
        ⟨fuel, (r' fuel).1, ?_, finished.trans done, symbols⟩⟩
      · rw [ran, ← none]
      · rw [ran', ← none']
    · refine ⟨.fails e.kind, ⟨fuel, (r fuel).1, e, ?_, rfl⟩, ⟨fuel, (r' fuel).1, e', ?_, kind⟩⟩
      · rw [ran, ← failed]
      · rw [ran', ← failed']
  · have onward (fuel : Nat) : (r fuel).2 = none ∧ (r fuel).1.finished = false := by
      refine ⟨?_, ?_⟩
      · by_contra some
        exact halts ⟨fuel, .inl some⟩
      · by_contra done
        exact halts ⟨fuel, .inr (by simpa using done)⟩
    have onward' (fuel : Nat) : (r' fuel).2 = none ∧ (r' fuel).1.finished = false := by
      obtain ⟨none, going⟩ := onward fuel
      obtain ⟨-, ⟨-, none', finished, -⟩ | ⟨e, -, failed, -⟩⟩ := same fuel
      · exact ⟨none', finished.trans going⟩
      · rw [none] at failed
        cases failed
    refine ⟨.diverges, fun fuel => ⟨(r fuel).1, ?_, (onward fuel).2⟩,
      fun fuel => ⟨(r' fuel).1, ?_, (onward' fuel).2⟩⟩
    · rw [runs fuel, ← (onward fuel).1]
    · rw [runs' fuel, ← (onward' fuel).1]

theorem Placement.placed_start {p p' : Program} (place : Placement p.lines p'.lines)
    (settings : Settings) :
    place.Placed (Machine.start p settings).machine (Machine.start p' settings).machine := by
  have frames : place.Frames (Machine.initial p settings) (Machine.initial p' settings) :=
    { program := rfl
      program' := rfl
      symbols := rfl
      functions := .nil
      calls := .nil
      loops := .nil
      sink := rfl
      properties := rfl
      finished := rfl }
  have went := frames.goToLine 0
  rw [place.index_zero] at went
  obtain ⟨m, ran⟩ : ∃ m, (Action.goToLine 0).outcome (Machine.initial p settings) =
    .ok ((), m) := by
    cases found : p.lines[0]? with
    | none => exact ⟨_, Machine.outcome_goToLine_past found⟩
    | some line => exact ⟨_, Machine.outcome_goToLine found⟩
  cases went with
  | ok ran ran' placed =>
      rw [Machine.start, Machine.start, Action.machine_of_outcome ran,
        Action.machine_of_outcome ran']
      exact placed
  | error failed => cases ran.symm.trans failed
  | fault failed => cases ran.symm.trans failed

/-- Some braces of a block-structured program without jumps are moved to lines of their own.  The
runs of both programs print the same at every time.  Either both go on for ever, or both finish with
the same variables, or both fail with errors of one kind. -/
theorem same_runs_of_movesBraces {source source' : String} {p p' : Program}
    (loaded : Program.load source = .ok p) (loaded' : Program.load source' = .ok p')
    (structured : p.BlockStructured) (jumpless : p.GotoFree) (moves : MovesBraces p.kinds p'.kinds)
    (settings : Settings) :
    (∀ fuel, ∃ m stop m' stop', runScript fuel source settings = .ok (m, stop) ∧
      runScript fuel source' settings = .ok (m', stop') ∧ m'.sink = m.sink) ∧
      ∃ ending, ScriptEnds source settings ending ∧ ScriptEnds source' settings ending := by
  have balanced := Program.balanced_of_load loaded
  have balanced' := Program.balanced_of_load loaded'
  have numbered := Program.numbered_of_load loaded
  have numbered' := Program.numbered_of_load loaded'
  obtain ⟨n, nests⟩ := p.exists_nestsBelow
  obtain ⟨n', nests'⟩ := p'.exists_nestsBelow
  have bounded := Program.bounded_of_load loaded nests
  have bounded' := Program.bounded_of_load loaded' nests'
  obtain ⟨place⟩ := moves.exists_placement rfl rfl (fun l hl =>
    ⟨balanced.loaded l hl, numbered l hl⟩)
    (fun l hl => ⟨balanced'.loaded l hl, numbered' l hl⟩)
  have base : Placement.Grounded p p' n n' (Machine.start p settings).machine
      (Machine.start p' settings).machine :=
    { balanced := balanced
      loaded' := balanced'.loaded
      numbered := numbered
      numbered' := numbered'
      sane := Machine.sane_start balanced.loaded bounded settings
      sane' := Machine.sane_start balanced'.loaded bounded' settings }
  have same (fuel : Nat) := ((place.placed_start settings).run base balanced' bounded bounded'
    (Machine.nested_start balanced structured settings) structured jumpless fuel).complete
  have runs (fuel : Nat) : runScript fuel source settings =
      .ok (Machine.complete ((Machine.start p settings).machine.run fuel)) := by
    rw [runScript, loaded]
    rfl
  have runs' (fuel : Nat) : runScript fuel source' settings =
      .ok (Machine.complete ((Machine.start p' settings).machine.run fuel)) := by
    rw [runScript, loaded']
    rfl
  exact ⟨fun fuel => ⟨_, _, _, _, runs fuel, runs' fuel, (same fuel).sink⟩,
    exists_ending runs runs' same⟩

theorem Machine.load_programOf {source : String}
    (isLoaded : (Program.load source).toOption.isSome = true) :
    Program.load source = .ok (programOf source) :=
  Except.eq_ok_getD isLoaded _

def compactScript : String :=
  "int x = 1\nwhile true \x7b\nsystem println x\nif true \x7b\nbreak\n\x7d else \x7b\n\x7d\n\x7d"

def spreadScript : String :=
  "int x = 1\nwhile true\n\x7b\nsystem println x\nif true \x7b\nbreak\n\x7d else\n\x7b\n\x7d\n\x7d"

def symbolsWithX : Symbols :=
  { bindings := [("x", { value := .int 1, type := .int, origin := .declaration })] }

theorem same_runs_of_movesBraces_compactScript :
    Program.load compactScript = .ok (Machine.programOf compactScript) ∧
      Program.load spreadScript = .ok (Machine.programOf spreadScript) ∧
      (Machine.programOf compactScript).BlockStructured ∧
        (Machine.programOf compactScript).GotoFree ∧
      MovesBraces (Machine.programOf compactScript).kinds (Machine.programOf spreadScript).kinds ∧
      (Machine.programOf compactScript).length + 2 = (Machine.programOf spreadScript).length ∧
      (∃ m m', runScript 40 compactScript {} = .ok (m, none) ∧ m.finished = true ∧
        m.sink.text = "1\n" ∧ runScript 40 spreadScript {} = .ok (m', none) ∧ m'.finished = true ∧
        m'.sink.text = "1\n") ∧
      ScriptEnds compactScript {} (.finishes symbolsWithX) ∧
      ScriptEnds spreadScript {} (.finishes symbolsWithX) := by
  have checked : (Program.load compactScript).toOption.isSome = true ∧
      (Program.load spreadScript).toOption.isSome = true ∧
      (Machine.programOf compactScript).BlockStructured ∧
        (Machine.programOf compactScript).GotoFree ∧
      MovesBraces (Machine.programOf compactScript).kinds (Machine.programOf spreadScript).kinds ∧
      (Machine.programOf compactScript).length + 2 = (Machine.programOf spreadScript).length ∧
      (runScript 40 compactScript {}).toOption.map
        (fun r => (r.2, r.1.finished, r.1.symbols, r.1.sink.text)) =
          some (none, true, symbolsWithX, "1\n") ∧
      (runScript 40 spreadScript {}).toOption.map (fun r => (r.2, r.1.finished, r.1.symbols)) =
        some (none, true, symbolsWithX) := by
    decide +kernel
  obtain ⟨isLoaded, isLoaded', structured, jumpless, moves, length, look, look'⟩ := checked
  have loaded := Machine.load_programOf isLoaded
  have loaded' := Machine.load_programOf isLoaded'
  obtain ⟨m, stop, m', stop', ran, ran', sink⟩ :=
    (same_runs_of_movesBraces loaded loaded' structured jumpless moves {}).1 40
  rw [ran] at look
  rw [ran'] at look'
  simp only [Except.toOption, Option.map_some, Option.some.injEq, Prod.mk.injEq] at look look'
  obtain ⟨rfl, finished, symbols, text⟩ := look
  obtain ⟨rfl, finished', symbols'⟩ := look'
  exact ⟨loaded, loaded', structured, jumpless, moves, length,
    ⟨m, m', ran, finished, text, ran', finished', sink ▸ text⟩,
    ⟨40, m, ran, finished, symbols⟩, ⟨40, m', ran', finished', symbols'⟩⟩

end LineScript
