import LineScript.Proofs.Nesting.InStep

/-!
# Calls and their callers

What a function does stays above the scope of its parameters: `Machine.Inside` says that a call is
active and that the variables, loops and calls of its caller are as they were.  Each step keeps this
until the call returns, and then the caller goes on as if a literal had stood in the place of the
call (`Machine.call_transparent`).
-/

namespace LineScript

open Scope

def Program.GotoFree (p : Program) : Prop :=
  ∀ line ∈ p.lines, .keyword .goto ∉ line.kinds

instance (p : Program) : Decidable p.GotoFree :=
  inferInstanceAs (Decidable (∀ line ∈ p.lines, _))

theorem Scope.above_call {inner stack above base : List Scope} {c : Call}
    (split : inner ++ .call c :: stack = above ++ base) (free : CallFree above) :
    ∃ between, inner = above ++ between ∧ base = between ++ .call c :: stack := by
  rcases List.append_eq_append_iff.1 split with ⟨x, rfl, rest⟩ | ⟨x, rfl, rest⟩
  · cases x with
    | nil => exact ⟨[], by simp, rest.symm⟩
    | cons s x =>
        cases rest
        cases (callFree_append.1 free).2
  · exact ⟨x, rfl, rest⟩

namespace Machine

variable {m m' s s' : Machine} {p : Program} {stack : List Scope} {c : Call}

/-- Without a `goto` in the program none is executed. -/
theorem Nested.jumpTarget? (nested : m.Nested p stack) (jumpless : p.GotoFree) :
    m.jumpTarget? = none := by
  -- A `goto` would be the first token of the working line.
  suffices first : m.finished = true ∨ ∀ d, m.work.line.cells.head? = some d →
      d.token.kind ≠ .keyword .goto by
    unfold Machine.jumpTarget?
    split
    · rename_i running cells
      rcases first with finished | other
      · rw [finished] at running
        cases running
      · rw [if_neg (other _ (by rw [cells]; rfl))]
    · rfl
  rcases nested.state with ⟨finished, -⟩ | ⟨t, -, doing⟩
  · exact .inl finished
  right
  intro d hd kind
  cases doing with
  | done _ empty =>
      rw [empty] at hd
      cases hd
  | brace works kind' =>
      rw [works.holds] at hd
      cases hd
      rw [kind'] at kind
      cases kind
  | closing works kind' =>
      rw [works.holds] at hd
      cases hd
      rw [kind'] at kind
      cases kind
  | passing works kind' =>
      rw [works.holds] at hd
      cases hd
      rw [kind'] at kind
      cases kind
  | keyword works kind' _ _ _ found cells =>
      rw [works.holds] at hd
      cases hd
      refine jumpless _ (List.mem_of_getElem? found) ?_
      rw [Line.kinds, cells, ← kind]
      simp
  | reducing _ reduces =>
      rw [reduces.cells] at hd
      rcases reduces.slot.first_cases reduces.plain hd with plain | other | other
      · rw [kind] at plain
        cases plain
      · rw [kind] at other
        cases other
      · rw [kind] at other
        cases other

theorem Nested.jumpsWell (nested : m.Nested p stack) (jumpless : p.GotoFree) : m.JumpsWell := by
  intro target jump
  rw [nested.jumpTarget? jumpless] at jump
  cases jump

def Inside (m : Machine) (p : Program) (s : Machine) (stack : List Scope) (c : Call) : Prop :=
  ∃ inner, m.Nested p (inner ++ .call c :: stack) ∧ s.symbols.Under m.symbols

structure Back (m : Machine) (p : Program) (s : Machine) (stack : List Scope)
    (c : Call) : Prop where
  nested : m.Nested p stack
  marks : m.symbols.marks = s.symbols.marks
  signature : m.symbols.signature = s.symbols.signature
  answered : ∃ value id, value.type = c.function.returns ∧ c.Answered value id m.work

theorem Inside.step (inside : m.Inside p s stack c) (caller : s.symbols.depth = stack.length)
    (steps : ∀ stack', m.Nested p stack' → m.Steps p stack' m') :
    m'.Inside p s stack c ∨ m'.Back p s stack c := by
  obtain ⟨inner, nested, under⟩ := inside
  cases steps _ nested with
  | moves moves =>
      left
      obtain ⟨stack', nested', a, a', base, split, rfl, free, -, keeps⟩ := moves
      obtain ⟨x, -, rfl⟩ := Scope.above_call split free
      refine ⟨a' ++ x, by rw [List.append_assoc]; exact nested', keeps _ ?_ under⟩
      rw [caller, List.length_append, List.length_cons]
      omega
  | enters d enters =>
      left
      exact ⟨.call d :: inner, enters.nested, enters.keeps _ _ (Nat.lt_succ_self _) under⟩
  | returns d rest returns =>
      obtain ⟨a, split, free⟩ := returns.stack
      obtain ⟨x, -, top⟩ := Scope.above_call split free
      have symbols := returns.symbols
      cases x with
      | nil =>
          -- The call itself returns.
          cases top
          rw [← caller] at symbols
          obtain ⟨marks, signature⟩ := under.unwind_depth
          exact .inr ⟨returns.nested, by rw [symbols, marks], by rw [symbols, signature],
            returns.answered⟩
      | cons x xs =>
          rw [List.cons_append] at top
          obtain ⟨-, rfl⟩ := List.cons.inj top
          refine .inl ⟨xs, returns.nested, ?_⟩
          rw [symbols]
          refine under.unwind ?_
          rw [caller, List.length_append, List.length_cons]
          omega

theorem Inside.calls (inside : m.Inside p s stack c) :
    (Scope.calls stack).length < m.calls.length := by
  obtain ⟨inner, nested, -⟩ := inside
  rw [nested.stands.mirrors.calls, calls_append, calls_call, List.length_append, List.length_cons]
  omega

/-- The first state without the call is the one that it returns to. -/
theorem Inside.back (inside : m.Inside p s stack c) (caller : s.symbols.depth = stack.length)
    (balanced : p.Balanced) (structured : p.BlockStructured) (jumpless : p.GotoFree) {n : Nat}
    (later : m.after n = .ok m')
    (first : ∀ j < n, ∀ m₁, m.after j = .ok m₁ → m₁.calls.length ≠ (Scope.calls stack).length)
    (back : m'.calls.length = (Scope.calls stack).length) : m'.Back p s stack c := by
  induction n generalizing m with
  | zero =>
      cases later
      have := inside.calls
      omega
  | succ n ih =>
      rw [after_succ] at later
      cases step : m.next with
      | error stop => simp [step] at later
      | ok m₁ =>
          rw [step, Except.bind_ok] at later
          have steps : ∀ stack', m.Nested p stack' → m.Steps p stack' m₁ := fun stack' nested =>
            nested.steps balanced structured (nested.jumpsWell jumpless) step
          rcases inside.step caller steps with inside₁ | back₁
          · refine ih inside₁ later ?_
            intro j lt m₂ reached
            exact first (j + 1) (by omega) m₂ (by rw [after_succ, step]; exact reached)
          · cases n with
            | zero =>
                cases later
                exact back₁
            | succ n =>
                refine absurd ?_ (first 1 (by omega) m₁ ((after_one m).trans step))
                rw [back₁.nested.stands.mirrors.calls]

end Machine

end LineScript
