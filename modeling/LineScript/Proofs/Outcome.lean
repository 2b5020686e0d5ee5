import LineScript.Machine.Run

/-!
# Outcomes of actions and runs

The outcome of an action is its result together with the machine that it leaves, or the reason why
it stopped; events are forgotten.  Outcomes compose like the actions do, so an action is executed
symbolically by rewriting with the equations of this module.

`Machine.next` is the outcome of one step, and `Machine.after` that of a number of steps, all of
which have to succeed.
-/

namespace LineScript

namespace Action

variable {α β : Type}

def outcome (x : Action α) (m : Machine) : Except Stop (α × Machine) :=
  (x m).result.map fun a => (a, (x m).machine)

theorem outcome_bind (x : Action α) (f : α → Action β) (m : Machine) :
    (x >>= f).outcome m = (x.outcome m).bind fun r => (f r.1).outcome r.2 := by
  unfold outcome
  rw [bind_apply]
  cases (x m).result with
  | error stop => rfl
  | ok a => rfl

theorem outcome_bind_of_ok {x : Action α} {f : α → Action β} {m m₁ : Machine} {a : α}
    (ran : x.outcome m = .ok (a, m₁)) : (x >>= f).outcome m = (f a).outcome m₁ := by
  rw [outcome_bind, ran]
  rfl

theorem outcome_bind_of_error {x : Action α} {f : α → Action β} {m : Machine} {stop : Stop}
    (failed : x.outcome m = .error stop) : (x >>= f).outcome m = .error stop := by
  rw [outcome_bind, failed]
  rfl

@[simp] theorem outcome_pure (a : α) (m : Machine) :
    (pure a : Action α).outcome m = .ok (a, m) := rfl

@[simp] theorem outcome_get (m : Machine) : get.outcome m = .ok (m, m) := rfl

@[simp] theorem outcome_modify (change : Machine → Machine) (m : Machine) :
    (modify change).outcome m = .ok ((), change m) := rfl

@[simp] theorem outcome_emit (e : Event) (m : Machine) : (emit e).outcome m = .ok ((), m) := rfl

@[simp] theorem outcome_ofExcept (x : Except Stop α) (m : Machine) :
    (ofExcept x).outcome m = x.map fun a => (a, m) := rfl

@[simp] theorem outcome_ofCause (line : Nat) (x : Except Cause α) (m : Machine) :
    (ofCause line x).outcome m = (x.mapError (.at line)).map fun a => (a, m) := rfl

@[simp] theorem outcome_ofFault (x : Except Fault α) (m : Machine) :
    (ofFault x).outcome m = (orFault x).map fun a => (a, m) := rfl

@[simp] theorem outcome_raise (e : RuntimeError) (m : Machine) :
    (raise e : Action α).outcome m = .error (.error e) := rfl

@[simp] theorem outcome_fail (line : Nat) (cause : Cause) (m : Machine) :
    (fail line cause : Action α).outcome m = .error (.error { cause, line }) := rfl

@[simp] theorem outcome_setSymbols (symbols : Symbols) (m : Machine) :
    (setSymbols symbols).outcome m = .ok ((), { m with symbols }) := rfl

@[simp] theorem outcome_valueOf (c : Cell) (m : Machine) :
    (valueOf c).outcome m = (m.valueOf c.token).map fun v => (v, m) := rfl

/-!
What is known of an action that succeeded.
-/

theorem machine_of_outcome {x : Action α} {m m₁ : Machine} {a : α}
    (ran : x.outcome m = .ok (a, m₁)) :
    (x m).machine = m₁ := by
  unfold outcome at ran
  cases result : (x m).result with
  | error stop => simp [result, Except.map] at ran
  | ok b =>
      rw [result] at ran
      cases ran
      rfl

theorem outcome_bind_ok {x : Action α} {f : α → Action β} {m : Machine} {r : β × Machine}
    (ran : (x >>= f).outcome m = .ok r) :
    ∃ a m₁, x.outcome m = .ok (a, m₁) ∧ (f a).outcome m₁ = .ok r := by
  rw [outcome_bind] at ran
  cases first : x.outcome m with
  | error stop =>
      rw [first] at ran
      cases ran
  | ok s =>
      rw [first] at ran
      exact ⟨s.1, s.2, rfl, ran⟩

theorem ofExcept_ok {x : Except Stop α} {m m₁ : Machine} {a : α}
    (ran : (ofExcept x).outcome m = .ok (a, m₁)) : x = .ok a ∧ m₁ = m := by
  rw [outcome_ofExcept] at ran
  cases x with
  | error stop => cases ran
  | ok b =>
      cases ran
      exact ⟨rfl, rfl⟩

theorem ofCause_ok {x : Except Cause α} {line : Nat} {m m₁ : Machine} {a : α}
    (ran : (ofCause line x).outcome m = .ok (a, m₁)) : x = .ok a ∧ m₁ = m := by
  rw [outcome_ofCause] at ran
  cases x with
  | error cause => cases ran
  | ok b =>
      cases ran
      exact ⟨rfl, rfl⟩

theorem ofFault_ok {x : Except Fault α} {m m₁ : Machine} {a : α}
    (ran : (ofFault x).outcome m = .ok (a, m₁)) : x = .ok a ∧ m₁ = m := by
  rw [outcome_ofFault] at ran
  cases x with
  | error fault => cases ran
  | ok b =>
      cases ran
      exact ⟨rfl, rfl⟩

theorem valueOf_ok {c : Cell} {m m₁ : Machine} {v : Value}
    (ran : (valueOf c).outcome m = .ok (v, m₁)) : m.valueOf c.token = .ok v ∧ m₁ = m :=
  ofExcept_ok ran

theorem asOperand_ok {f : Focus} {c? : Option Cell} {c : Cell} {m m₁ : Machine}
    (ran : (asOperand f c?).outcome m = .ok (c, m₁)) :
    c? = some c ∧ c.token.kind.isOperand = true ∧ m₁ = m := by
  unfold asOperand at ran
  split at ran
  · split at ran
    · rename_i operand
      cases ran
      exact ⟨rfl, operand, rfl⟩
    · cases ran
  · cases ran

end Action

/-!
The equations of `Except` that symbolic execution needs.
-/

namespace Except

variable {ε ε' α β : Type}

@[simp] theorem pure_eq_ok (a : α) : (pure a : Except ε α) = .ok a := rfl

@[simp] theorem bind_eq_bind (x : Except ε α) (f : α → Except ε β) : (x >>= f) = x.bind f := rfl

@[simp] theorem bind_ok (a : α) (f : α → Except ε β) : (Except.ok a).bind f = f a := rfl

@[simp] theorem bind_error (e : ε) (f : α → Except ε β) : (Except.error e).bind f = .error e := rfl

@[simp] theorem map_ok_eq (a : α) (f : α → β) : (Except.ok a : Except ε α).map f = .ok (f a) := rfl

@[simp] theorem map_error_eq (e : ε) (f : α → β) :
    (Except.error e : Except ε α).map f = .error e := rfl

@[simp] theorem mapError_ok_eq (a : α) (f : ε → ε') :
    (Except.ok a : Except ε α).mapError f = .ok a := rfl

@[simp] theorem mapError_error_eq (e : ε) (f : ε → ε') :
    (Except.error e : Except ε α).mapError f = .error (f e) := rfl

theorem toOption_eq_some_iff {x : Except ε α} {a : α} : x.toOption = some a ↔ x = .ok a := by
  cases x with
  | error e => simp [Except.toOption]
  | ok b => simp [Except.toOption]

theorem eq_ok_getD {x : Except ε α} (isSome : x.toOption.isSome = true) (a : α) :
    x = .ok (x.toOption.getD a) := by
  cases x with
  | error e => cases isSome
  | ok b => rfl

end Except

namespace Machine

def next (m : Machine) : Except Stop Machine :=
  (Action.step.outcome m).map Prod.snd

/-- The machine after a number of steps that all succeed, or the first reason to stop. -/
def after : Nat → Machine → Except Stop Machine
  | 0, m => .ok m
  | n + 1, m => m.next.bind (after n)

theorem outcome_of_next {m m' : Machine} {x : Action Unit} {m₀ : Machine}
    (same : m.next = (x.outcome m₀).map Prod.snd) (next : m.next = .ok m') :
    x.outcome m₀ = .ok ((), m') := by
  rw [same] at next
  cases ran : x.outcome m₀ with
  | error stop => simp [ran] at next
  | ok r =>
      simp only [ran, Except.map_ok_eq, Except.ok.injEq] at next
      rw [← next]

@[simp] theorem after_zero (m : Machine) : m.after 0 = .ok m := rfl

theorem after_succ (n : Nat) (m : Machine) : m.after (n + 1) = m.next.bind (after n) := rfl

theorem after_one (m : Machine) : m.after 1 = m.next := by
  rw [after_succ]
  cases m.next <;> rfl

theorem after_add (a b : Nat) (m : Machine) : m.after (a + b) = (m.after a).bind (after b) := by
  induction a generalizing m with
  | zero => simp
  | succ a ih =>
      rw [Nat.succ_add, after_succ, after_succ]
      cases m.next with
      | error stop => rfl
      | ok m' => exact ih m'

theorem after_induction {P : Machine → Prop} {k : Nat} {m m' : Machine}
    (reached : m.after k = .ok m')
    (holds : P m) (keeps : ∀ m₁ m₂, P m₁ → m₁.next = .ok m₂ → P m₂) : P m' := by
  induction k generalizing m with
  | zero =>
      cases reached
      exact holds
  | succ k ih =>
      rw [after_succ] at reached
      cases step : m.next with
      | error stop => simp [step] at reached
      | ok m₁ =>
          rw [step] at reached
          exact ih reached (keeps m m₁ holds step)

theorem after_trans {a b : Nat} {m m' : Machine} (first : m.after a = .ok m') :
    m.after (a + b) = m'.after b := by
  rw [after_add, first]
  rfl

/-- All states of the first `n` steps exist and have a property. -/
def Stays (P : Machine → Prop) (n : Nat) (m : Machine) : Prop :=
  ∀ k ≤ n, ∃ m', m.after k = .ok m' ∧ P m'

theorem stays_zero {P : Machine → Prop} {m : Machine} (here : P m) : m.Stays P 0 := by
  intro k hk
  obtain rfl : k = 0 := by omega
  exact ⟨m, rfl, here⟩

theorem stays_succ {P : Machine → Prop} {n : Nat} {m m' : Machine} (here : P m)
    (step : m.next = .ok m') (later : m'.Stays P n) : m.Stays P (n + 1) := by
  intro k hk
  cases k with
  | zero => exact ⟨m, rfl, here⟩
  | succ k =>
      obtain ⟨m'', reached, holds⟩ := later k (by omega)
      exact ⟨m'', by rw [after_succ, step]; exact reached, holds⟩

theorem Stays.mono {P Q : Machine → Prop} {n : Nat} {m : Machine} (stays : m.Stays P n)
    (weaker : ∀ m', P m' → Q m') : m.Stays Q n := by
  intro k hk
  obtain ⟨m', reached, holds⟩ := stays k hk
  exact ⟨m', reached, weaker m' holds⟩

/-!
## Whole runs
-/

def Breaks (m : Machine) : Prop :=
  ∃ k m' e, m.after k = .ok m' ∧ m'.next = .error (.error e)

def Finishes (m m' : Machine) : Prop :=
  m'.finished = true ∧ ∃ k, m.after k = .ok m'

theorem next_finished {m : Machine} (finished : m.finished = true) : m.next = .ok m := by
  unfold next Action.step
  rw [Action.outcome_bind]
  simp [finished]

theorem after_finished {m : Machine} (finished : m.finished = true) (k : Nat) :
    m.after k = .ok m := by
  induction k with
  | zero => rfl
  | succ k ih => rw [after_succ, next_finished finished, Except.bind_ok, ih]

theorem after_of_le {m m' : Machine} {k j : Nat} (reached : m.after k = .ok m')
    (finished : m'.finished = true) (le : k ≤ j) : m.after j = .ok m' := by
  obtain ⟨d, rfl⟩ := Nat.exists_eq_add_of_le le
  rw [after_trans reached, after_finished finished]

theorem Finishes.unique {m a b : Machine} (first : m.Finishes a)
    (second : m.Finishes b) : a = b := by
  obtain ⟨doneA, k, reachedA⟩ := first
  obtain ⟨doneB, j, reachedB⟩ := second
  rcases Nat.le_total k j with le | le
  · rw [after_of_le reachedA doneA le] at reachedB
    exact Except.ok.inj reachedB
  · rw [after_of_le reachedB doneB le] at reachedA
    exact (Except.ok.inj reachedA).symm

theorem lt_of_next_error {m m' m'' : Machine} {k j : Nat} {stop : Stop}
    (reached : m.after k = .ok m') (failed : m'.next = .error stop)
    (later : m.after j = .ok m'') : j ≤ k := by
  rcases Nat.lt_or_ge k j with lt | le
  · obtain ⟨d, rfl⟩ : ∃ d, j = k + (d + 1) := ⟨j - k - 1, by omega⟩
    rw [after_trans reached, after_succ, failed] at later
    cases later
  · exact le

theorem Finishes.not_breaks {m m' : Machine} (finishes : m.Finishes m') : ¬ m.Breaks := by
  obtain ⟨done, k, reached⟩ := finishes
  rintro ⟨j, m'', e, reached', failed⟩
  have late := after_of_le reached done (Nat.le_max_left k (j + 1))
  have := lt_of_next_error reached' failed late
  omega

theorem run_succ (fuel : Nat) {m : Machine} (running : m.finished = false) :
    m.run (fuel + 1) =
      match m.next with
      | .ok m' => m'.run fuel
      | .error stop => (m.step.machine, some stop) := by
  simp only [run, drive, running, Bool.false_eq_true, if_false, next, Action.outcome, step]
  cases (Action.step m).result <;> rfl

theorem run_of_after {m m' : Machine} {k : Nat} (reached : m.after k = .ok m') :
    m.run k = (m', none) := by
  induction k generalizing m with
  | zero =>
      cases reached
      rfl
  | succ k ih =>
      cases running : m.finished with
      | true =>
          rw [after_finished running] at reached
          cases reached
          simp [run, drive, running]
      | false =>
          rw [run_succ k running]
          rw [after_succ] at reached
          cases step : m.next with
          | error stop => simp [step] at reached
          | ok m₁ =>
              rw [step] at reached
              exact ih reached

theorem run_of_breaks {m : Machine} (breaks : m.Breaks) :
    ∃ fuel m' e, m.run fuel = (m', some (.error e)) := by
  obtain ⟨k, m', e, reached, failed⟩ := breaks
  refine ⟨k + 1, ?_⟩
  induction k generalizing m with
  | zero =>
      obtain rfl : m = m' := Except.ok.inj reached
      have running : m.finished = false := by
        cases h : m.finished with
        | false => rfl
        | true => simp [next_finished h] at failed
      exact ⟨m.step.machine, e, by rw [run_succ 0 running, failed]⟩
  | succ k ih =>
      rw [after_succ] at reached
      cases step : m.next with
      | error stop => simp [step] at reached
      | ok m₁ =>
          rw [step] at reached
          cases running : m.finished with
          | true =>
              rw [next_finished running] at step
              cases step
              rw [Except.bind_ok, after_finished running] at reached
              cases reached
              rw [next_finished running] at failed
              cases failed
          | false =>
              obtain ⟨m₂, e, ran⟩ := ih reached
              exact ⟨m₂, e, by rw [run_succ (k + 1) running, step]; exact ran⟩

theorem run_cases (fuel : Nat) (m : Machine) :
    (∃ m', m.run fuel = (m', none) ∧ ∃ k, m.after k = .ok m') ∨
      ∃ m' stop, m.run fuel = (m', some stop) ∧
        ∃ k m'', m.after k = .ok m'' ∧ m''.next = .error stop := by
  induction fuel generalizing m with
  | zero => exact .inl ⟨m, rfl, 0, rfl⟩
  | succ fuel ih =>
      cases running : m.finished with
      | true => exact .inl ⟨m, by simp [run, drive, running], 0, rfl⟩
      | false =>
          rw [run_succ fuel running]
          cases step : m.next with
          | error stop => exact .inr ⟨_, stop, rfl, 0, m, rfl, step⟩
          | ok m₁ =>
              have first : m.after 1 = .ok m₁ := (after_one m).trans step
              rcases ih m₁ with ⟨m', ran, k, reached⟩ | ⟨m', stop, ran, k, m'', reached, failed⟩
              · exact .inl ⟨m', ran, 1 + k, by rw [after_trans first, reached]⟩
              · exact .inr ⟨m', stop, ran, 1 + k, m'', by rw [after_trans first, reached], failed⟩

@[simp] theorem complete_stopped (m : Machine) (stop : Stop) :
    complete (m, some stop) = (m, some stop) := rfl

@[simp] theorem complete_ended (m : Machine) :
    complete (m, none) = (m, if m.finished then m.flush else none) := rfl

end Machine

end LineScript
