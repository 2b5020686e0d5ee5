import LineScript.Proofs.Atomicity

/-!
# The line of an error

A step that fails leaves the machine on the line where it was, also where it has changed something
else before.  Only a call has left its line when its parameters are bound: if one of them is
refused, the machine stands on the first line of the program (`Machine.failed_step_line`).
-/

namespace LineScript

namespace Action

variable {α β : Type} {x : Action α} {g : α → Action β} {m : Machine} {f : Focus} {at? : Option Nat}

/-- If the action stops with an error of the script, the machine stands on the given line. -/
def FailsOn (at? : Option Nat) (x : Action α) (m : Machine) : Prop :=
  ∀ e, (x m).result = .error (.error e) → (x m).machine.currentLine? = at?

theorem Atomic.failsOn (atomic : x.Atomic m) : x.FailsOn m.currentLine? m := by
  intro e failed
  rw [atomic e failed]

theorem Errorless.failsOn (never : x.Errorless) (m : Machine) : x.FailsOn at? m :=
  fun e failed => absurd failed (never m e)

theorem FailsOn.bind (first : x.FailsOn at? m)
    (second : ∀ a, (x m).result = .ok a → (g a).FailsOn at? (x m).machine) :
    (x >>= g).FailsOn at? m := by
  intro e failed
  cases ran : (x m).result with
  | error stop =>
      rw [bind_of_error g ran] at failed ⊢
      cases failed
      exact first e ran
  | ok a =>
      rw [bind_of_ok g ran] at failed ⊢
      exact second a ran e failed

theorem FailsOn.after (first : x.Errorless)
    (second : ∀ a, (x m).result = .ok a → (g a).FailsOn at? (x m).machine) :
    (x >>= g).FailsOn at? m :=
  .bind (first.failsOn m) second

theorem Looks.failsOn (looks : x.Looks)
    (second : ∀ a, (x m).result = .ok a → (g a).FailsOn m.currentLine? m) :
    (x >>= g).FailsOn m.currentLine? m := by
  refine .bind (looks.atomic m).failsOn fun a ran => ?_
  rw [looks m]
  exact second a ran

theorem machine_edit (change : Line → Except Fault Line) (m : Machine) :
    ∃ line, (edit change m).machine = { m with work := { m.work with line } } := by
  rw [edit_apply]
  cases change m.work.line with
  | ok line => exact ⟨line, rfl⟩
  | error fault => exact ⟨m.work.line, rfl⟩

theorem failsOn_edit {change : Line → Except Fault Line} {rest : Unit → Action β}
    (onward : ∀ m₁ : Machine, m₁.currentLine? = m.currentLine? →
      (rest ()).FailsOn m₁.currentLine? m₁) :
    (edit change >>= rest).FailsOn m.currentLine? m := by
  refine .after (errorless_edit _) fun _ _ => ?_
  obtain ⟨line, left⟩ := machine_edit change m
  rw [left]
  exact onward { m with work := { m.work with line } } rfl

/-!
## Steps that change something before they fail
-/

theorem endCall_failsOn (value : Value) (line : Nat) :
    (endCall value line).FailsOn m.currentLine? m := by
  refine looks_get.failsOn ?_
  rintro _ ⟨⟩
  split
  · exact atomic_stop.failsOn
  · rename_i call calls _
    refine .after (errorless_modify _) fun _ _ => ?_
    simp only
    split
    · exact atomic_stop.failsOn
    · refine Errorless.failsOn (.bind (errorless_modify _) fun _ =>
        .bind (errorless_emit _) fun _ => ?_) _
      exact .bind (errorless_edit _) fun _ => errorless_answer _ _

theorem giveBack_failsOn : (giveBack f).FailsOn m.currentLine? m := by
  unfold giveBack
  split
  · exact .after (errorless_pure _) fun value _ => endCall_failsOn value _
  · exact (looks_valueOf _).failsOn fun value _ => endCall_failsOn value _
  · exact (looks_ofExcept _).failsOn fun value _ => endCall_failsOn value _

theorem closeBlock_failsOn : (closeBlock f).FailsOn m.currentLine? m := by
  refine looks_get.failsOn ?_
  rintro _ ⟨⟩
  refine failsOn_edit fun m₁ _ => .after (errorless_modify _) fun _ _ => ?_
  refine .after (errorless_emit _) fun _ _ => ?_
  split
  · exact errorless_nextIteration.failsOn _
  · split
    · exact (errorless_pure _).failsOn _
    · split
      · split
        · exact atomic_stop.failsOn
        · exact endCall_failsOn _ _
      · exact (errorless_pure _).failsOn _

theorem obeySignal_failsOn (signal : Signal) (line : Nat) :
    (obeySignal signal line).FailsOn m.currentLine? m := by
  refine looks_get.failsOn fun m₀ _ => ?_
  split
  · exact atomic_stop.failsOn
  · split
    · cases signal with
      | «break» => exact errorless_leaveLoop.failsOn m
      | «continue» => exact errorless_nextIteration.failsOn m
    · exact atomic_stop.failsOn

theorem decideLoop_failsOn (result : Option Token) :
    (decideLoop result).FailsOn m.currentLine? m := by
  unfold decideLoop
  split
  · exact errorless_leaveLoop.failsOn m
  · refine looks_get.failsOn fun m₀ _ => (looks_ofExcept _).failsOn fun value _ => ?_
    refine (looks_ofExcept _).failsOn fun holds _ => ?_
    split
    · split
      · exact (errorless_pure _).failsOn m
      · exact (errorless_goTo _).failsOn m
    · exact errorless_leaveLoop.failsOn m

theorem conclude_failsOn (result : Option Token) : (conclude result).FailsOn m.currentLine? m := by
  refine looks_get.failsOn fun m₀ _ => ?_
  split
  · split
    · exact obeySignal_failsOn _ _
    · exact (errorless_goToLine _).failsOn m
  · exact errorless_testLoop.failsOn m
  · exact errorless_testLoop.failsOn m
  · exact decideLoop_failsOn result

theorem callBuiltin_failsOn : (callBuiltin f).FailsOn m.currentLine? m := by
  unfold callBuiltin
  split
  · exact atomic_stop.failsOn
  · split
    · exact atomic_stop.failsOn
    · refine looks_get.failsOn fun m₀ _ => (looks_ofExcept _).failsOn fun read _ => ?_
      refine .after (errorless_modify _) fun _ _ => ?_
      refine (looks_ofExcept _).failsOn fun result _ => Errorless.failsOn ?_ _
      refine .bind (errorless_emit _) fun _ => ?_
      split
      · exact .bind (errorless_edit _) fun _ => errorless_answer _ _
      · exact errorless_edit _

/-!
## Calls
-/

theorem bindParameters_failsOn (line : Nat) (params : List (Parameter × Value)) :
    (bindParameters line params).FailsOn m.currentLine? m := by
  induction params generalizing m with
  | nil => exact (errorless_pure _).failsOn m
  | cons param rest ih =>
      refine looks_get.failsOn fun m₀ _ => (looks_ofExcept _).failsOn fun symbols _ => ?_
      exact .after (errorless_modify _) fun _ _ => ih

theorem beginCall_failsOn {inner : List Cell} {close : Cell} {nameRef : Ref} {name : String}
    {args : List Value} {function : Function} (running : m.finished = false)
    (called : calleeBefore? f = some (nameRef, name))
    (read : readArguments m close [] true inner = .ok args) (found : m.callee name = .ok function)
    (checked : checkArguments function args = .ok ()) :
    (beginCall f inner close).FailsOn (some 0) m := by
  unfold beginCall
  rw [called]
  refine .after errorless_get ?_
  rintro _ ⟨⟩
  refine .after (errorless_of_ok fun _ => ⟨args, read⟩) ?_
  intro args' read'
  obtain rfl : args = args' := Except.ok.inj (read.symm.trans read')
  refine .after (errorless_of_ok fun _ => ⟨function, by simp [ofCause, found]⟩) ?_
  intro function' found'
  obtain rfl : function = function' := Except.ok.inj (found.symm.trans (ofCause_result found'))
  refine .after (errorless_of_ok fun _ => ⟨(), by simp [ofCause, checked]⟩) fun _ _ => ?_
  refine .after (errorless_modify _) fun _ _ => .after (errorless_modify _) fun _ _ => ?_
  have first : ∀ m' : Machine, m'.finished = false → m'.work = {} →
      (bindParameters f.cell.token.line (function.parameters.zip args)).FailsOn (some 0) m' := by
    intro m' running here e failed
    rw [bindParameters_failsOn _ _ e failed]
    simp [Machine.currentLine?, running, here]
  refine .bind (first _ running rfl) fun _ _ => Errorless.failsOn ?_ _
  refine .bind errorless_get fun _ => .bind (errorless_emit _) fun _ => ?_
  exact .bind (errorless_ofFault _) fun start => errorless_goTo start

/-!
## Steps
-/

theorem perform_failsOn (unbound : ¬ Binds m f) : (perform f).FailsOn m.currentLine? m := by
  unfold perform
  split
  · exact (errorless_openBlock f).failsOn m
  · exact closeBlock_failsOn
  · rename_i kind
    exact (applyParen_atomic kind unbound).failsOn
  · split
    · exact (assign_atomic _).failsOn
    · split
      · exact (applyUnary_atomic _).failsOn
      · exact (applyBinary_atomic _).failsOn
  · exact (declare_atomic _).failsOn
  · exact (expandTemplate_atomic _).failsOn
  · rename_i keyword kind
    by_cases returns : keyword = .return
    · subst returns
      exact giveBack_failsOn
    by_cases prints : keyword = .system
    · subst prints
      exact callBuiltin_failsOn
    · refine (applyKeyword_atomic kind returns fun refused => prints ?_).failsOn
      exact TokenKind.keyword.inj (kind.symm.trans refused.1)
  · exact atomic_stop.failsOn

theorem act_failsOn (unbound : ¬ Binds m f) : (act f).FailsOn m.currentLine? m := by
  unfold act
  simp only
  split
  · split
    · exact atomic_stop.failsOn
    · exact failsOn_edit fun _ _ => conclude_failsOn _
  · refine looks_get.failsOn fun _ _ => (looks_emit _).failsOn fun _ _ => ?_
    exact perform_failsOn unbound

theorem act_failsOn_first (running : m.finished = false) (binds : Binds m f) :
    (act f).FailsOn (some 0) m := by
  obtain ⟨kind, expanded, inner, close, rest, nameRef, name, args, function, split, called, read,
    found, checked⟩ := binds
  unfold act
  simp only [kind, TokenKind.isInert, Bool.false_eq_true, if_false]
  refine .after errorless_get fun _ _ => .after (errorless_emit _) fun _ _ => ?_
  simp only [perform, kind, applyParen, Line.enclosed_eq kind, ofFault_ok_bind, split, expanded,
    Bool.not_true, Bool.false_eq_true, if_false, if_true]
  exact beginCall_failsOn running called read found checked

theorem readArguments_unselected (close : Cell) (read : List Value) (expecting : Bool)
    (cells : List Cell) :
    readArguments { m with work := { m.work with selected := none } } close read expecting cells =
      readArguments m close read expecting cells := by
  induction cells generalizing read expecting with
  | nil => rfl
  | cons c cells ih =>
      simp only [readArguments, ih]
      rfl

theorem binds_unselected :
    Binds { m with work := { m.work with selected := none } } f ↔ Binds m f := by
  simp only [Binds, readArguments_unselected]
  rfl

end Action

namespace Machine

variable {m : Machine}

/-- The next step makes a call: its function is found and its arguments are right, so that its
parameters are bound. -/
def BindsParameters (m : Machine) : Prop :=
  ∃ f, m.acting? = some f ∧ Action.Binds m f

theorem step_failsOn (running : m.finished = false) :
    (¬ m.BindsParameters → Action.step.FailsOn m.currentLine? m) ∧
      (m.BindsParameters → Action.step.FailsOn (some 0) m) := by
  cases picked : Action.choice? m.work with
  | none =>
      have completes : Action.step.FailsOn m.currentLine? m := by
        refine Action.looks_get.failsOn ?_
        rintro _ ⟨⟩
        simp only [running, Bool.false_eq_true, if_false, picked]
        split
        · exact Action.conclude_failsOn none
        · exact .after (Action.errorless_modify _) fun _ _ => Action.conclude_failsOn none
      exact ⟨fun _ => completes, fun ⟨f, acts, _⟩ => by simp [acting?, picked] at acts⟩
  | some r =>
      obtain ⟨f, found⟩ := Action.choice?_linked picked
      have acts : m.acting? = some f := by simp [acting?, picked, found]
      refine ⟨fun unbound => ?_, ?_⟩
      · intro e failed
        have acting := Action.step_eq_act_of_error running acts failed
        rw [acting] at failed ⊢
        refine Action.act_failsOn (fun binds => unbound ⟨f, acts, ?_⟩) e failed
        exact Action.binds_unselected.1 binds
      · rintro ⟨f', acts', binds⟩ e failed
        obtain rfl : f = f' := Option.some.inj (acts.symm.trans acts')
        have acting := Action.step_eq_act_of_error running acts failed
        rw [acting] at failed ⊢
        exact Action.act_failsOn_first running (Action.binds_unselected.2 binds) e failed

/-- After a step of a loaded script that fails, the machine is on the line of the step, unless the
step was to bind the parameters of a call: then it is on the first line of the program. -/
theorem failed_step_line {source : String} {p : Program} (loaded : Program.load source = .ok p)
    (settings : Settings) {k : Nat} (reached : (Machine.start p settings).machine.after k = .ok m)
    {stop : Stop} (failed : m.step.result = .error stop) :
    (m.step.machine.currentLine? = m.currentLine? ↔ ¬ m.BindsParameters ∨ m.currentLine? = some 0) ∧
      (m.BindsParameters → m.step.machine.currentLine? = some 0) := by
  obtain ⟨n, nests⟩ := p.exists_nestsBelow
  have sane := sane_after loaded settings nests reached
  obtain ⟨e, rfl⟩ : ∃ e, stop = .error e := by
    cases stop with
    | error e => exact ⟨e, rfl⟩
    | fault fault =>
        exact absurd failed (sane.step_noFault (Program.balanced_of_load loaded)
          (Program.bounded_of_load loaded nests) fault)
  have running : m.finished = false := by
    cases finished : m.finished with
    | false => rfl
    | true => simp [step, Action.step, Action.bind_apply, finished] at failed
  obtain ⟨stays, leaves⟩ := step_failsOn running
  refine ⟨⟨fun same => ?_, ?_⟩, fun binds => leaves binds e failed⟩
  · by_cases binds : m.BindsParameters
    · exact .inr (same ▸ leaves binds e failed)
    · exact .inl binds
  · rintro (unbound | first)
    · exact stays unbound e failed
    · by_cases binds : m.BindsParameters
      · rw [first]
        exact leaves binds e failed
      · exact stays binds e failed

def untrueScript : String :=
  "def int f(int n) \x7b\nwhile n \x7b\n\x7d\nreturn n\n\x7d\nint x = 1 + f(2)"

theorem failed_step_line_untrueScript :
    Program.load untrueScript = .ok (programOf untrueScript) ∧
      (∃ stop, (stateOf untrueScript 4).step.result = .error stop) ∧
      (stateOf untrueScript 4).calls.length = 1 ∧ ¬ (stateOf untrueScript 4).BindsParameters ∧
      (stateOf untrueScript 4).currentLine? = some 1 ∧
      (stateOf untrueScript 4).step.machine ≠ stateOf untrueScript 4 ∧
      (stateOf untrueScript 4).step.machine.currentLine? = some 1 := by
  have checked : (Program.load untrueScript).toOption.isSome = true ∧
      ((Machine.start (programOf untrueScript) {}).machine.after 4).toOption.isSome = true ∧
      (stateOf untrueScript 4).step.result.toOption = none ∧
      (stateOf untrueScript 4).calls.length = 1 ∧
      (stateOf untrueScript 4).acting?.map (fun f => f.cell.token.kind) = some (.name "n") ∧
      (stateOf untrueScript 4).currentLine? = some 1 ∧
      (stateOf untrueScript 4).step.machine.work.line.length ≠
        (stateOf untrueScript 4).work.line.length := by
    decide +kernel
  obtain ⟨isSome, runs, fails, calls, operand, line, changed⟩ := checked
  have loaded : Program.load untrueScript = .ok (programOf untrueScript) :=
    Except.eq_ok_getD isSome _
  have reached : (Machine.start (programOf untrueScript) {}).machine.after 4 =
      .ok (stateOf untrueScript 4) := Except.eq_ok_getD runs _
  obtain ⟨stop, failed⟩ : ∃ stop, (stateOf untrueScript 4).step.result = .error stop := by
    cases result : (stateOf untrueScript 4).step.result with
    | error stop => exact ⟨stop, rfl⟩
    | ok u => simp [result, Except.toOption] at fails
  have unbound : ¬ (stateOf untrueScript 4).BindsParameters := by
    rintro ⟨f, acts, binds⟩
    rw [acts] at operand
    exact absurd (binds.1.symm.trans (Option.some.inj operand)) (by simp)
  have same := (failed_step_line loaded {} reached failed).1.2 (.inl unbound)
  exact ⟨loaded, ⟨stop, failed⟩, calls, unbound, line,
    fun same => changed (congrArg (fun m => m.work.line.length) same), same.trans line⟩

def takenScript : String :=
  "def null f(int a) \x7b\n\x7d\nint a = 1\nf(2)"

/-- The call is on the last line, and its failure leaves the machine on the first one. -/
theorem line_lost_takenScript :
    Program.load takenScript = .ok (programOf takenScript) ∧
      (Machine.start (programOf takenScript) {}).machine.after 4 = .ok (stateOf takenScript 4) ∧
      (stateOf takenScript 4).step.result = .error (.at 4 (.redeclared "a")) ∧
      (stateOf takenScript 4).currentLine? = some 3 ∧
      (stateOf takenScript 4).step.machine.currentLine? = some 0 := by
  have checked : (Program.load takenScript).toOption.isSome = true ∧
      ((Machine.start (programOf takenScript) {}).machine.after 4).toOption.isSome = true ∧
      (match (stateOf takenScript 4).step.result with
        | .error stop => some stop
        | .ok _ => none) = some (.at 4 (.redeclared "a")) ∧
      (stateOf takenScript 4).currentLine? = some 3 ∧
      (stateOf takenScript 4).step.machine.currentLine? = some 0 := by
    decide +kernel
  obtain ⟨isSome, runs, fails, before, after⟩ := checked
  have failed : (stateOf takenScript 4).step.result = .error (.at 4 (.redeclared "a")) := by
    split at fails
    · rename_i stop result
      rw [result, Option.some.inj fails]
    · cases fails
  exact ⟨Except.eq_ok_getD isSome _, Except.eq_ok_getD runs _, failed, before, after⟩

end Machine

end LineScript
