import LineScript.Proofs.Outcome

/-!
# Two runs side by side

`Action.Agree` compares two actions on two machines: both succeed and a relation holds of what they
leave behind, or both stop with errors of one kind after the same output.  Agreement composes along
`bind`, so two runs are followed action by action.  Nothing is promised when the first action
faults; the runs of loaded programs never do.
-/

namespace LineScript

/-- Both computations succeed, with related results, or both stop with errors of one kind. -/
inductive Concur {α β : Type} (R : α → β → Prop) : Except Stop α → Except Stop β → Prop where
  | ok {a : α} {b : β} (holds : R a b) : Concur R (.ok a) (.ok b)
  | error {e e' : RuntimeError} (kind : e'.kind = e.kind) :
      Concur R (.error (.error e)) (.error (.error e'))
  | fault {f : Fault} {y : Except Stop β} : Concur R (.error (.fault f)) y

namespace Concur

variable {α β γ δ : Type} {R : α → β → Prop} {S : γ → δ → Prop} {x : Except Stop α}
    {y : Except Stop β}

theorem bind {f : α → Except Stop γ} {g : β → Except Stop δ} (first : Concur R x y)
    (second : ∀ a b, R a b → Concur S (f a) (g b)) : Concur S (x.bind f) (y.bind g) := by
  cases first with
  | ok holds => exact second _ _ holds
  | error kind => exact .error kind
  | fault => exact .fault

theorem known (both : Concur R x y) : Concur (fun a b => x = .ok a ∧ y = .ok b ∧ R a b) x y := by
  cases both with
  | ok holds => exact .ok ⟨rfl, rfl, holds⟩
  | error kind => exact .error kind
  | fault => exact .fault

theorem cause (x : Except Cause α) (line line' : Nat) :
    Concur Eq (x.mapError (.at line)) (x.mapError (.at line')) := by
  cases x with
  | ok a => exact .ok rfl
  | error cause => exact .error rfl

end Concur

namespace Action

variable {α β γ δ : Type} {m m' n n' : Machine} {x : Action α} {y : Action β}
  {f : α → Action γ} {g : β → Action δ} {P : α → β → Machine → Machine → Prop}
  {Q : γ → δ → Machine → Machine → Prop} {R : α → β → Prop}

inductive Agree (P : α → β → Machine → Machine → Prop) (x : Action α) (m : Machine) (y : Action β)
    (m' : Machine) : Prop where
  | ok {a : α} {b : β} {n n' : Machine} (ran : x.outcome m = .ok (a, n))
      (ran' : y.outcome m' = .ok (b, n')) (holds : P a b n n')
  | error {e e' : RuntimeError} (ran : x.outcome m = .error (.error e))
      (ran' : y.outcome m' = .error (.error e')) (kind : e'.kind = e.kind)
      (sink : (y m').machine.sink = (x m).machine.sink)
  | fault {f : Fault} (ran : x.outcome m = .error (.fault f))

theorem machine_bind_of_ok {a : α} (f : α → Action γ) (ran : x.outcome m = .ok (a, n)) :
    ((x >>= f) m).machine = (f a n).machine := by
  have left := machine_of_outcome ran
  cases result : (x m).result with
  | error stop => simp [outcome, result] at ran
  | ok b =>
      obtain rfl : b = a := by simpa [outcome, result] using congrArg (Except.map Prod.fst) ran
      rw [bind_of_ok f result, left]

theorem machine_bind_of_error {stop : Stop} (f : α → Action γ) (ran : x.outcome m = .error stop) :
    ((x >>= f) m).machine = (x m).machine := by
  cases result : (x m).result with
  | error stop => rw [bind_of_error f result]
  | ok b => simp [outcome, result] at ran

namespace Agree

theorem next {a : α} {b : β} (ran : x.outcome m = .ok (a, n)) (ran' : y.outcome m' = .ok (b, n'))
    (rest : Agree Q (f a) n (g b) n') : Agree Q (x >>= f) m (y >>= g) m' := by
  have left : (x >>= f).outcome m = (f a).outcome n := by rw [outcome_bind, ran, Except.bind_ok]
  have right : (y >>= g).outcome m' = (g b).outcome n' := by rw [outcome_bind, ran', Except.bind_ok]
  cases rest with
  | ok ran₁ ran₁' holds => exact .ok (left.trans ran₁) (right.trans ran₁') holds
  | error ran₁ ran₁' kind sink =>
      refine .error (left.trans ran₁) (right.trans ran₁') kind ?_
      rw [machine_bind_of_ok f ran, machine_bind_of_ok g ran', sink]
  | fault ran₁ => exact .fault (left.trans ran₁)

theorem bind (first : Agree P x m y m') (second : ∀ a b n n', P a b n n' →
    Agree Q (f a) n (g b) n') :
    Agree Q (x >>= f) m (y >>= g) m' := by
  cases first with
  | ok ran ran' holds => exact .next ran ran' (second _ _ _ _ holds)
  | error ran ran' kind sink =>
      refine .error ?_ ?_ kind ?_
      · rw [outcome_bind, ran, Except.bind_error]
      · rw [outcome_bind, ran', Except.bind_error]
      · rw [machine_bind_of_error f ran, machine_bind_of_error g ran', sink]
  | fault ran => exact .fault (by rw [outcome_bind, ran, Except.bind_error])

theorem of_eq {u : Action α} {v : Action β} (left : x m = u n) (right : y m' = v n')
    (agree : Agree P u n v n') : Agree P x m y m' := by
  have ran : x.outcome m = u.outcome n := by rw [outcome, outcome, left]
  have ran' : y.outcome m' = v.outcome n' := by rw [outcome, outcome, right]
  cases agree with
  | ok ran₁ ran₁' holds => exact .ok (ran.trans ran₁) (ran'.trans ran₁') holds
  | error ran₁ ran₁' kind sink =>
      refine .error (ran.trans ran₁) (ran'.trans ran₁') kind ?_
      rw [left, right, sink]
  | fault ran₁ => exact .fault (ran.trans ran₁)

theorem fail {line line' : Nat} {cause cause' : Cause} (sink : m'.sink = m.sink)
    (kind : cause'.kind = cause.kind) :
    Agree P (Action.fail line cause : Action α) m (Action.fail line' cause' : Action β) m' :=
  .error rfl rfl kind sink

theorem raise {e e' : RuntimeError} (sink : m'.sink = m.sink) (kind : e'.kind = e.kind) :
    Agree P (Action.raise e : Action α) m (Action.raise e' : Action β) m' :=
  .error rfl rfl kind sink

theorem stray {t t' : Token} (sink : m'.sink = m.sink) :
    Agree P (Action.raise t.stray : Action α) m (Action.raise t'.stray : Action β) m' :=
  .raise sink rfl

theorem stopped (first : Agree (fun _ _ _ _ => False) x m y m') : Agree Q (x >>= f) m
    (y >>= g) m' :=
  bind first fun _ _ _ _ never => never.elim

theorem except {u : Except Stop α} {v : Except Stop β} (sink : m'.sink = m.sink)
    (both : Concur R u v) (rest : ∀ a b, R a b → Agree Q (f a) m (g b) m') :
    Agree Q (ofExcept u >>= f) m (ofExcept v >>= g) m' := by
  refine bind (P := fun a b n n' => R a b ∧ n = m ∧ n' = m') ?_ ?_
  · cases both with
    | ok holds => exact .ok rfl rfl ⟨holds, rfl, rfl⟩
    | error kind => exact .error rfl rfl kind sink
    | fault => exact .fault rfl
  · rintro a b n n' ⟨holds, rfl, rfl⟩
    exact rest a b holds

theorem cause {u : Except Cause α} {f : α → Action γ} {g : α → Action δ} {line line' : Nat}
    (sink : m'.sink = m.sink) (rest : ∀ a, u = .ok a → Agree Q (f a) m (g a) m') :
    Agree Q (ofCause line u >>= f) m (ofCause line' u >>= g) m' := by
  cases u with
  | ok a => exact .next rfl rfl (rest a rfl)
  | error cause => exact .stopped (.error rfl rfl rfl sink)

theorem look {u : Except Fault α} {v : Except Fault β}
    (both : ∀ a, u = .ok a → ∃ b, v = .ok b ∧ R a b)
    (rest : ∀ a b, R a b → Agree Q (f a) m (g b) m') :
    Agree Q (ofFault u >>= f) m (ofFault v >>= g) m' := by
  cases u with
  | error fault =>
      refine .fault (f := fault) ?_
      rw [outcome_bind]
      rfl
  | ok a =>
      obtain ⟨b, rfl, holds⟩ := both a rfl
      exact .next rfl rfl (rest a b holds)

end Agree

end Action

end LineScript
