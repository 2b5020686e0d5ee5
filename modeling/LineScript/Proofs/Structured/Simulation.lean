import LineScript.Proofs.Structured.Loading
import LineScript.Proofs.Structured.Loops

/-!
# Lines implement structured programs

Every statement is implemented by the lines that it is written with (`Statement.implements`), so the
run of a script is what the recursive evaluator says of the program (`Body.runScript_iff`).
-/

namespace LineScript

open Machine

section

variable {p : Program} {n i : Nat}

theorem Program.CodeAt.parts (loaded : p.Loaded) {header : List TokenKind} {body rest : Layout}
    (plain : Braceless header) (braced : body.Braced)
    (code : p.CodeAt i (Layout.block header body rest).code) :
    (∃ cells brace close, p.BlockAt i cells brace (i + 1 + body.code.length) close ∧
        cells.map (fun c => c.token.kind) = header) ∧
      p.CodeAt (i + 1) body.code ∧ p.NoElseAt (i + 1 + body.code.length) ∧
      p.CodeAt (i + 1 + body.code.length + 1) rest.code := by
  rw [Layout.code] at code
  obtain ⟨inner, last⟩ := codeAt_append (codeAt_cons code)
  obtain ⟨line', found', kinds⟩ := last.line
  refine ⟨code.blockAt loaded plain braced, inner, ?_, codeAt_cons last⟩
  intro line found
  rw [found] at found'
  cases found'
  simp [kinds, TokenKind.closeBrace]

theorem Assignment.noElse (a : Assignment) : a.kinds.head? ≠ some (.keyword .else) := by
  cases a <;> simp [Assignment.kinds, Assignment.declared]

theorem Statement.first_line (s : Statement) :
    ∃ ks rest, s.layout.code = ks :: rest ∧ ks.head? ≠ some (.keyword .else) := by
  cases s with
  | assign a => exact ⟨_, _, rfl, a.noElse⟩
  | signal s => exact ⟨_, _, rfl, by cases s <;> simp [Signal.keyword]⟩
  | _ => exact ⟨_, _, rfl, by simp [TokenKind.openBrace]⟩

theorem Body.noElseAt (b : Body) (code : p.CodeAt i b.layout.code)
    (after : p.NoElseAt (i + b.layout.code.length)) : p.NoElseAt i := by
  cases b with
  | nil => exact after
  | cons s rest =>
      obtain ⟨ks, more, hcode, noElse⟩ := s.first_line
      rw [Body.layout, Layout.code_append, hcode, List.cons_append] at code
      obtain ⟨line, found, kinds⟩ := code.line
      intro line' found'
      rw [found] at found'
      cases found'
      rw [kinds]
      exact noElse

mutual

theorem Statement.implements (loaded : p.Loaded) : (s : Statement) → s.Legal → {i : Nat} →
    p.CodeAt i s.layout.code → p.NoElseAt (i + s.layout.code.length) →
    Implements p n i (i + s.layout.code.length) (s.exec n)
  | .assign _, legal, _, code, _ => implements_assign loaded legal code
  | .println _, _, _, code, _ => implements_println loaded code
  | .block body, legal, i, code, _ => by
      have braced := (body.tidy_layout legal).braced
      obtain ⟨-, inner, close, -⟩ := code.parts loaded clean_nil.braceless braced
      have h := implements_block loaded braced code (body.keeps n)
        (Body.implements loaded body legal inner close)
      rw [Statement.layout, Layout.end_block]
      exact h
  | .branch e body rest, legal, i, code, after => by
      obtain ⟨he, hbody, hrest⟩ := legal
      obtain ⟨⟨cells, brace, close, block, kinds⟩, inner, noElse, tail⟩ :=
        code.parts loaded (clean_keyword he).braceless (body.tidy_layout hbody).braced
      obtain ⟨ic, cells, rfl, hic, hcells⟩ := List.map_eq_cons_iff.1 kinds
      rw [Statement.layout, Layout.end_block] at after ⊢
      exact implements_branch loaded he block hic hcells (body.keeps n)
        (Body.implements loaded body hbody inner noElse)
        (Alternatives.continues loaded rest hrest tail after) (by omega)
  | .while e body, legal, i, code, _ => by
      obtain ⟨he, hbody⟩ := legal
      obtain ⟨⟨cells, brace, close, block, kinds⟩, inner, noElse, -⟩ :=
        code.parts loaded (clean_keyword he).braceless (body.tidy_layout hbody).braced
      obtain ⟨wc, cells, rfl, hwc, hcells⟩ := List.map_eq_cons_iff.1 kinds
      have h := implements_while loaded he block hwc hcells (body.keeps n)
        (Body.implements loaded body hbody inner noElse)
      rw [Statement.layout, Layout.end_block]
      exact h
  | .for init e step body, legal, i, code, _ => by
      obtain ⟨hinit, he, hstep, hbody⟩ := legal
      obtain ⟨⟨cells, brace, close, block, kinds⟩, inner, noElse, -⟩ :=
        code.parts loaded (clean_for hinit he hstep).braceless (body.tidy_layout hbody).braced
      obtain ⟨fc, cells, rfl, hfc, hcells⟩ := List.map_eq_cons_iff.1 kinds
      rw [forKinds, List.cons_append] at hcells
      obtain ⟨oc, cells, rfl, hoc, hcells⟩ := List.map_eq_cons_iff.1 hcells
      obtain ⟨inside, last, rfl, hinside, hlast⟩ := List.map_eq_append_iff.1 hcells
      obtain ⟨cc, rfl, hcc⟩ := List.map_eq_singleton_iff.1 hlast
      have h := implements_for loaded hinit he hstep block hfc hoc hcc hinside (body.keeps n)
        (Body.implements loaded body hbody inner noElse)
      rw [Statement.layout, Layout.end_block]
      exact h
  | .signal s, _, _, code, _ => implements_signal s code

theorem Body.implements (loaded : p.Loaded) : (b : Body) → b.Legal → {i : Nat} →
    p.CodeAt i b.layout.code → p.NoElseAt (i + b.layout.code.length) →
    Implements p n i (i + b.layout.code.length) (b.exec n)
  | .nil, _, i, _, _ => implements_nil p n i
  | .cons first rest, legal, i, code, after => by
      rw [Body.layout, Layout.code_append] at code after ⊢
      rw [List.length_append, ← Nat.add_assoc] at after ⊢
      obtain ⟨head, tail⟩ := Program.codeAt_append code
      exact (Statement.implements loaded first legal.1 head (rest.noElseAt tail after)).andThen
        (Body.implements loaded rest legal.2 tail after) (Nat.le_add_right _ _)

theorem Alternatives.continues (loaded : p.Loaded) : (r : Alternatives) → r.Legal → {i : Nat} →
    p.CodeAt i r.layout.code → p.NoElseAt (i + r.layout.code.length) →
    Continues p n i (i + r.layout.code.length) (r.exec n)
  | .none, _, _, _, after => continues_none loaded after
  | .otherwise body, legal, i, code, _ => by
      obtain ⟨⟨cells, brace, close, block, kinds⟩, inner, noElse, -⟩ :=
        code.parts loaded (clean_singleton _).braceless (body.tidy_layout legal).braced
      obtain ⟨ec, rfl, hec⟩ := List.map_eq_singleton_iff.1 kinds
      have h := continues_otherwise loaded block hec (body.keeps n)
        (Body.implements loaded body legal inner noElse)
      rw [Alternatives.layout, Layout.end_block]
      exact h
  | .elseIf e body rest, legal, i, code, after => by
      obtain ⟨he, hbody, hrest⟩ := legal
      obtain ⟨⟨cells, brace, close, block, kinds⟩, inner, noElse, tail⟩ :=
        code.parts loaded (clean_elseIf he).braceless (body.tidy_layout hbody).braced
      obtain ⟨ec, cells, rfl, hec, hcells⟩ := List.map_eq_cons_iff.1 kinds
      obtain ⟨ic, cells, rfl, hic, hcells⟩ := List.map_eq_cons_iff.1 hcells
      rw [Alternatives.layout, Layout.end_block] at after ⊢
      exact continues_elseIf loaded he block hec hic hcells (body.keeps n)
        (Body.implements loaded body hbody inner noElse)
        (Alternatives.continues loaded rest hrest tail after) (by omega)

end

end

/-!
## Runs of scripts
-/

theorem Machine.Signals.breaks {m : Machine} {p : Program} {s : Signal} {env : Env}
    (signals : m.Signals p s env []) : m.Breaks := by
  obtain ⟨i, x, symbols, works, kind, shows, -⟩ := signals
  have inert : x.token.kind.isInert = true := by rw [kind]; rfl
  have purpose : (m.onLine [] 0).work.purpose = .statement := works.aim
  have outside : (m.onLine [] 0).loops = [] := shows.loops
  refine Breaks.of_next (e := { cause := .unhandled (.outsideLoop s), line := x.token.line }) ?_
  rw [next_alone works inert]
  simp [Action.conclude, Action.outcome_bind, purpose, Action.signalOf?, kind, Action.obeySignal,
    outside]

def startOf (p : Program) (properties : List (String × String)) : Machine :=
  (Machine.start p { properties }).machine

theorem startOf_arrives {p : Program} (loaded : p.Loaded) (properties : List (String × String)) :
    (startOf p properties).Arrives p 0 {} [] := by
  have shows : (initial p { properties }).Shows p {} [] :=
    ⟨rfl, rfl, ⟨rfl, Writer.reliable_buffer⟩, rfl, rfl, rfl⟩
  obtain ⟨m, moved, arrives⟩ := goToLine_arrives loaded shows rfl 0
  have first : startOf p properties = m := Action.machine_of_outcome moved
  rw [first]
  exact arrives

namespace Body

variable {program : Body}

theorem meets_of_loaded (legal : program.Legal) {p : Program} (loaded : p.Loaded)
    (kinds : p.kinds = program.layout.code) (properties : List (String × String)) (n : Nat) :
    (startOf p properties).Meets n (Ends p p.length []) (program.exec n {}) := by
  have size : p.length = 0 + program.layout.code.length := by
    rw [← kinds, Program.kinds, List.length_map, Nat.zero_add]
    rfl
  have code : p.CodeAt 0 program.layout.code := ⟨[], [], by simp [kinds], rfl⟩
  have noElse : p.NoElseAt (0 + program.layout.code.length) := by
    intro line found
    rw [← size, Program.length, List.getElem?_eq_none (Nat.le_refl _)] at found
    cases found
  rw [size]
  exact Body.implements loaded program legal code noElse _ {} [] (startOf_arrives loaded properties)
    (fun loop rest h => by cases h)

theorem start_meets (legal : program.Legal) (properties : List (String × String)) :
    ∃ p, Program.load program.source = .ok p ∧
      ∀ n, (startOf p properties).Meets n (Ends p p.length []) (program.exec n {}) := by
  obtain ⟨p, load, kinds, loaded, -⟩ := load_source legal
  exact ⟨p, load, meets_of_loaded legal loaded kinds properties⟩

theorem finishes_of_ends {p : Program} {env : Env} {m m' : Machine} {k : Nat}
    (reached : m.after k = .ok m') (ends : Ends p p.length [] .normal env m') :
    m.Finishes m' ∧ m'.Shows p env [] := by
  obtain ⟨shows, passed⟩ := ends
  rw [Program.length, List.getElem?_eq_none (Nat.le_refl _)] at passed
  exact ⟨⟨passed, k, reached⟩, shows⟩

theorem yields_of_finishes {p : Program} {m m' : Machine}
    (meets : ∀ n, m.Meets n (Ends p p.length []) (program.exec n {})) (finishes : m.Finishes m') :
    ∃ n env, program.exec n {} = .done .normal env ∧ m'.Shows p env [] := by
  obtain ⟨done, k, reached⟩ := id finishes
  have here := meets (k + 1)
  cases result : program.exec (k + 1) {} with
  | done ending env =>
      rw [result] at here
      obtain ⟨j, m'', reached', ends⟩ := here
      cases ending with
      | normal =>
          obtain ⟨finishes', shows⟩ := finishes_of_ends reached' ends
          rw [← finishes.unique finishes'] at shows
          exact ⟨_, env, result, shows⟩
      | signal s => exact absurd (Breaks.of_after reached' ends.breaks) finishes.not_breaks
  | failed =>
      rw [result] at here
      exact absurd here finishes.not_breaks
  | unfinished =>
      rw [result] at here
      obtain ⟨j, m'', many, reached', running⟩ := here
      rw [after_of_le reached done (by omega)] at reached'
      cases reached'
      rw [done] at running
      cases running

theorem goesWrong_of_breaks {p : Program} {m : Machine}
    (meets : ∀ n, m.Meets n (Ends p p.length []) (program.exec n {})) (breaks : m.Breaks) :
    program.GoesWrong := by
  obtain ⟨k, m', e, reached, failed⟩ := id breaks
  have here := meets (k + 1)
  cases result : program.exec (k + 1) {} with
  | done ending env =>
      rw [result] at here
      obtain ⟨j, m'', reached', ends⟩ := here
      cases ending with
      | normal => exact absurd breaks (finishes_of_ends reached' ends).1.not_breaks
      | signal s => exact ⟨_, .inr ⟨s, env, result⟩⟩
  | failed => exact ⟨_, .inl result⟩
  | unfinished =>
      rw [result] at here
      obtain ⟨j, m'', many, reached', -⟩ := here
      have := lt_of_next_error reached failed reached'
      omega

theorem breaks_of_goesWrong {p : Program} {m : Machine}
    (meets : ∀ n, m.Meets n (Ends p p.length []) (program.exec n {}))
    (wrong : program.GoesWrong) : m.Breaks := by
  obtain ⟨n, result | ⟨s, env, result⟩⟩ := wrong
  · have here := meets n
    rw [result] at here
    exact here
  · have here := meets n
    rw [result] at here
    obtain ⟨k, m', reached, ends⟩ := here
    exact Breaks.of_after reached ends.breaks

/-- The run of a script is what its program means: it finishes with the variables and output that
the recursive evaluator gives, and only then, and it ends with an error exactly if the evaluator
does. -/
theorem runScript_iff (legal : program.Legal) (properties : List (String × String)) :
    (∀ bindings output,
      (∃ fuel m, runScript fuel program.source { properties } = .ok (m, none) ∧
        m.finished = true ∧ m.symbols.bindings = bindings ∧ m.sink.text = output) ↔
      program.Yields bindings output) ∧
    ((∃ fuel m e, runScript fuel program.source { properties } = .ok (m, some (.error e))) ↔
      program.GoesWrong) := by
  obtain ⟨p, load, meets⟩ := start_meets legal properties
  have ran : ∀ fuel, runScript fuel program.source { properties } =
      .ok (Machine.complete ((startOf p properties).run fuel)) := by
    intro fuel
    simp [runScript, load, startOf]
  have flushed : ∀ m', (startOf p properties).Finishes m' → m'.flush = none := by
    intro m' finishes
    obtain ⟨n, env, -, shows⟩ := yields_of_finishes meets finishes
    simp [Machine.flush, Sink.canFlush, shows.sink.reliable.flushes]
  refine ⟨fun bindings output => ⟨?_, ?_⟩, ?_, ?_⟩
  · rintro ⟨fuel, m, result, finished, rfl, rfl⟩
    rw [ran] at result
    rcases run_cases fuel (startOf p properties) with ⟨m', same, k, reached⟩ | ⟨m', stop, same, -⟩
    · rw [same, complete_ended] at result
      simp only [Except.ok.injEq, Prod.mk.injEq] at result
      obtain ⟨rfl, -⟩ := result
      obtain ⟨n, env, done, shows⟩ := yields_of_finishes meets ⟨finished, k, reached⟩
      exact ⟨n, env, done, by rw [shows.symbols], shows.sink.text.symm⟩
    · rw [same, complete_stopped] at result
      simp at result
  · rintro ⟨n, env, done, rfl, rfl⟩
    have here := meets n
    rw [done] at here
    obtain ⟨k, m', reached, ends⟩ := here
    obtain ⟨finishes, shows⟩ := finishes_of_ends reached ends
    refine ⟨k, m', ?_, finishes.1, by rw [shows.symbols], shows.sink.text⟩
    rw [ran, run_of_after reached, complete_ended]
    simp [finishes.1, flushed m' finishes]
  · rintro ⟨fuel, m, e, result⟩
    rw [ran] at result
    rcases run_cases fuel (startOf p properties) with ⟨m', same, k, reached⟩ |
      ⟨m', stop, same, k, m'', reached, failed⟩
    · rw [same, complete_ended] at result
      cases finished : m'.finished with
      | true => simp [finished, flushed m' ⟨finished, k, reached⟩] at result
      | false => simp [finished] at result
    · rw [same, complete_stopped] at result
      simp only [Except.ok.injEq, Prod.mk.injEq, Option.some.injEq] at result
      obtain ⟨rfl, rfl⟩ := result
      exact goesWrong_of_breaks meets ⟨k, m'', e, reached, failed⟩
  · intro wrong
    obtain ⟨fuel, m, e, result⟩ := run_of_breaks (breaks_of_goesWrong meets wrong)
    exact ⟨fuel, m, e, by rw [ran, result, complete_stopped]⟩

/-- Sums the numbers below 4 but 1, with a `continue` and a nested `break`. -/
def partialSum : Body :=
  .cons (.assign (.set "s" (.literal (.int 0)))) <|
  .cons (.for (.declare .int "i" (.literal (.int 0)))
      (.between .less (.name "i") (.literal (.int 9)))
      (.change .addAssign "i" (.literal (.int 1)))
      (.cons (.branch (.between .equal (.name "i") (.literal (.int 1)))
          (.cons (.signal .continue) .nil)
          (.elseIf (.between .equal (.name "i") (.literal (.int 4)))
            (.cons (.block (.cons (.signal .break) .nil)) .nil)
            (.otherwise (.cons (.assign (.change .addAssign "s" (.name "i"))) .nil)))) <|
        .cons (.println [.name "i", .literal (.string "of"), .name "s"]) .nil))
    .nil

theorem runScript_partialSum :
    partialSum.Legal ∧
      ∃ fuel m, runScript fuel partialSum.source {} = .ok (m, none) ∧ m.finished = true ∧
        m.symbols.bindings = [("s", { value := .int 5, type := .int, origin := .declaration })] ∧
        m.sink.text = "0 of 0\n2 of 2\n3 of 5\n" := by
  have legal : partialSum.Legal := by decide +kernel
  refine ⟨legal, ((runScript_iff legal []).1 _ _).2 ⟨5, ?_⟩⟩
  exact ⟨{ symbols :=
      { bindings := [("s", { value := .int 5, type := .int, origin := .declaration })] }
           output := "0 of 0\n2 of 2\n3 of 5\n" }, by decide +kernel, rfl, rfl⟩

end Body

end LineScript
