import LineScript.Proofs.Safety.Reachable

/-!
# Steps that fail

A step that fails leaves the machine as it was, since an action looks up, computes and checks all
that it needs before its first change.  The steps of which this cannot be said are those of
`Machine.Exempt`: a call has left its line when its parameters are bound, a return has left the call
when the type of its value is checked, a line is cleared before it completes, and what has been
printed is printed.
-/

namespace LineScript

/-!
## Looking first
-/

namespace Action

variable {α β : Type} {x : Action α} {g : α → Action β} {m : Machine}

def Looks (x : Action α) : Prop :=
  ∀ m, (x m).machine = m

def Errorless (x : Action α) : Prop :=
  ∀ m e, (x m).result ≠ .error (.error e)

/-- If the action stops with an error of the script, the machine is as it was. -/
def Atomic (x : Action α) (m : Machine) : Prop :=
  ∀ e, (x m).result = .error (.error e) → (x m).machine = m

theorem Looks.atomic (looks : x.Looks) (m : Machine) : x.Atomic m :=
  fun _ _ => looks m

theorem Errorless.atomic (never : x.Errorless) (m : Machine) : x.Atomic m :=
  fun e failed => absurd failed (never m e)

theorem Looks.next (looks : x.Looks) (rest : ∀ a, (x m).result = .ok a → (g a).Atomic m) :
    (x >>= g).Atomic m := by
  intro e failed
  have same := looks m
  cases ran : (x m).result with
  | error stop =>
      rw [bind_of_error g ran]
      exact same
  | ok a =>
      rw [bind_of_ok g ran, same] at failed ⊢
      exact rest a ran e failed

theorem Errorless.bind (first : x.Errorless) (second : ∀ a, (g a).Errorless) :
    (x >>= g).Errorless := by
  intro m e failed
  cases ran : (x m).result with
  | error stop =>
      rw [bind_of_error g ran] at failed
      cases failed
      exact first m e ran
  | ok a =>
      rw [bind_of_ok g ran] at failed
      exact second a (x m).machine e failed

theorem looks_get : get.Looks :=
  fun _ => rfl

theorem looks_emit (e : Event) : (emit e).Looks :=
  fun _ => rfl

theorem looks_ofExcept (y : Except Stop α) : (ofExcept y).Looks :=
  fun _ => rfl

theorem atomic_stop {stop : Stop} : (Action.stop stop : Action α).Atomic m :=
  (looks_ofExcept _).atomic m

theorem looks_valueOf (c : Cell) : (valueOf c).Looks :=
  fun _ => rfl

theorem looks_asOperand (f : Focus) (c? : Option Cell) : (asOperand f c?).Looks := by
  unfold asOperand
  split
  · split <;> exact fun _ => rfl
  · exact fun _ => rfl

theorem ofCause_result {line : Nat} {y : Except Cause α} {a : α}
    (ran : (ofCause line y m).result = .ok a) : y = .ok a := by
  cases y with
  | error cause => cases ran
  | ok b =>
      cases ran
      rfl

theorem errorless_of_ok (ran : ∀ m, ∃ a, (x m).result = .ok a) : x.Errorless := by
  intro m e failed
  obtain ⟨a, ok⟩ := ran m
  rw [ok] at failed
  cases failed

theorem errorless_pure (a : α) : (pure a : Action α).Errorless :=
  errorless_of_ok fun _ => ⟨a, rfl⟩

theorem errorless_get : get.Errorless :=
  errorless_of_ok fun m => ⟨m, rfl⟩

theorem errorless_modify (change : Machine → Machine) : (modify change).Errorless :=
  errorless_of_ok fun _ => ⟨(), rfl⟩

theorem errorless_emit (e : Event) : (emit e).Errorless :=
  errorless_of_ok fun _ => ⟨(), rfl⟩

theorem errorless_ofFault (y : Except Fault α) : (ofFault y).Errorless := by
  intro m e failed
  cases y <;> cases failed

theorem errorless_edit (change : Line → Except Fault Line) : (edit change).Errorless :=
  .bind errorless_get fun _ => .bind (errorless_ofFault _) fun _ => errorless_modify _

theorem errorless_removeEach (cells : List Cell) : (removeEach cells).Errorless := by
  induction cells with
  | nil => exact errorless_pure _
  | cons c cells ih => exact .bind (errorless_edit _) fun _ => ih

theorem errorless_newId : newId.Errorless :=
  .bind errorless_get fun _ => .bind (errorless_modify _) fun _ => errorless_pure _

theorem errorless_answer (r : Ref) (value : Value) : (answer r value).Errorless :=
  .bind errorless_get fun _ => .bind (errorless_ofFault _) fun _ => .bind errorless_newId fun _ =>
    errorless_edit _

theorem errorless_insertPieces (r : Ref) (line : Nat) (priority : Int) (kinds : List TokenKind) :
    (insertPieces r line priority kinds).Errorless := by
  induction kinds with
  | nil => exact errorless_pure _
  | cons kind kinds ih => exact .bind errorless_newId fun _ => .bind (errorless_edit _) fun _ => ih

/-!
## Transfers of control
-/

theorem errorless_halt : halt.Errorless :=
  .bind errorless_get fun _ => .bind (errorless_emit _) fun _ => errorless_modify _

theorem errorless_goToLine (i : Nat) : (goToLine i).Errorless := by
  refine .bind errorless_get fun m => ?_
  split
  · exact errorless_modify _
  · exact errorless_halt

theorem errorless_goTo (target : Option Position) : (goTo target).Errorless := by
  cases target with
  | none => exact errorless_halt
  | some pos =>
      refine .bind errorless_get fun m => .bind (errorless_ofFault _) fun line => ?_
      exact .bind (errorless_ofFault _) fun token => .bind (errorless_emit _) fun _ =>
        errorless_modify _

theorem errorless_workOnHeader (header : Nat) (part : HeaderPart) (purpose : Purpose) :
    (workOnHeader header part purpose).Errorless :=
  .bind errorless_get fun _ => .bind (errorless_ofFault _) fun _ => errorless_modify _

theorem errorless_leaveLoop : leaveLoop.Errorless := by
  refine .bind errorless_get fun m => ?_
  split
  · exact errorless_pure _
  · refine .bind (errorless_modify _) fun _ => .bind (errorless_emit _) fun _ => ?_
    exact .bind (errorless_ofFault _) fun after => errorless_goTo after

theorem errorless_testLoop : testLoop.Errorless := by
  refine .bind errorless_get fun m => ?_
  split
  · exact errorless_pure _
  · split
    · exact errorless_workOnHeader _ _ _
    · exact errorless_leaveLoop

theorem errorless_nextIteration : nextIteration.Errorless := by
  refine .bind errorless_get fun m => ?_
  split
  · exact errorless_pure _
  · refine .bind (errorless_modify _) fun _ => ?_
    split
    · exact errorless_workOnHeader _ _ _
    · exact errorless_testLoop

theorem errorless_beginLoop (loop : Loop) : (beginLoop loop).Errorless :=
  .bind (errorless_emit _) fun _ => .bind (errorless_modify _) fun _ => errorless_modify _

theorem errorless_openBlock (f : Focus) : (openBlock f).Errorless :=
  .bind errorless_get fun _ => .bind (errorless_edit _) fun _ => errorless_modify _

end Action

/-!
## Actions that may fail halfway
-/

/-- The token that a step acts on. -/
def Machine.acting? (m : Machine) : Option Focus :=
  (Action.choice? m.work).bind m.work.line.focus?

namespace Action

def Binds (m : Machine) (f : Focus) : Prop :=
  f.cell.token.kind = .bracket .call .opening ∧ f.cell.token.expanded = true ∧
    ∃ inner close rest nameRef name args function,
      Line.splitClose? .call 0 f.after = some (inner, close, rest) ∧
      calleeBefore? f = some (nameRef, name) ∧ readArguments m close [] true inner = .ok args ∧
      m.callee name = .ok function ∧ checkArguments function args = .ok ()

def EndsFunction (m : Machine) (f : Focus) : Prop :=
  f.cell.token.kind = .closeBrace ∧ endsLoop m m.work.index = false ∧
    ∃ call, m.calls.head? = some call ∧ call.function.body.closing.line = m.work.index

def PrintRefused (m : Machine) (f : Focus) : Prop :=
  f.cell.token.kind = .keyword .system ∧
    ∃ target following name args rest,
      f.after = target :: following ∧ builtinName? target.token.kind = some name ∧
      (Builtin.ofName? name = some .print ∨ Builtin.ofName? name = some .println) ∧
      builtinArguments m following = .ok (args, rest) ∧
      (Builtin.run name m.properties args m.sink).2 = .error (.unhandled .writeFailed)

end Action

/-- A step that may have changed the machine when it fails. -/
inductive Machine.Exempt (m : Machine) : Prop where
  | binding (f : Focus) (acts : m.acting? = some f) (binds : Action.Binds m f)
  | returning (f : Focus) (acts : m.acting? = some f) (kind : f.cell.token.kind = .keyword .return)
  | ending (f : Focus) (acts : m.acting? = some f) (ends : Action.EndsFunction m f)
  | signalling (c : Cell) (signal : Signal) (alone : m.work.line.cells = [c])
      (purpose : m.work.purpose = .statement) (kind : c.token.kind = .signal signal)
  | deciding (c : Cell) (alone : m.work.line.cells = [c])
      (purpose : m.work.purpose = .loopCondition)
      (inert : c.token.kind.isInert = true)
  | printing (f : Focus) (acts : m.acting? = some f) (refused : Action.PrintRefused m f)

namespace Action

variable {m : Machine} {f : Focus}

/-!
## Expressions
-/

theorem applyBinary_atomic (op : Operator) : (applyBinary f op).Atomic m := by
  refine (looks_asOperand _ _).next fun left _ => (looks_asOperand _ _).next fun right _ => ?_
  refine (looks_valueOf _).next fun a _ => (looks_valueOf _).next fun b _ => ?_
  refine (looks_ofExcept _).next fun result _ => Errorless.atomic ?_ m
  exact .bind (errorless_emit _) fun _ => .bind (errorless_answer _ _) fun _ =>
    .bind (errorless_edit _) fun _ => errorless_edit _

theorem applyUnary_atomic (op : Operator) : (applyUnary f op).Atomic m := by
  refine (looks_asOperand _ _).next fun operand _ => ?_
  split
  · exact Errorless.atomic (.bind (errorless_emit _) fun _ => errorless_edit _) m
  · refine (looks_valueOf _).next fun v _ => (looks_ofExcept _).next fun result _ => ?_
    exact Errorless.atomic (.bind (errorless_answer _ _) fun _ => errorless_edit _) m

theorem assign_atomic (op : Operator) : (assign f op).Atomic m := by
  unfold assign
  split
  · exact atomic_stop
  · rename_i name declared before _
    refine (looks_asOperand _ _).next fun source _ => (looks_valueOf _).next fun operand _ => ?_
    refine looks_get.next fun m₀ _ => ?_
    have finish : ∀ value, (do
        let symbols ← ofCause f.cell.token.line (assigned m₀.symbols op name declared value)
        setSymbols symbols
        emit (.assigned name value)
        if declared.isSome then removeEach (f.before.tail.take 1)
        answer f.cell.ref value
        removeEach (f.before.take 1)
        remove source.ref : Action Unit).Atomic m := by
      intro value
      refine (looks_ofExcept _).next fun symbols _ => Errorless.atomic ?_ m
      refine .bind (errorless_modify _) fun _ => .bind (errorless_emit _) fun _ => ?_
      have replaced : (do
          answer f.cell.ref value
          removeEach (f.before.take 1)
          remove source.ref : Action Unit).Errorless :=
        .bind (errorless_answer _ _) fun _ =>
          .bind (errorless_removeEach _) fun _ => errorless_edit _
      cases declared with
      | none => exact replaced
      | some type => exact .bind (errorless_removeEach _) fun _ => replaced
    cases op.operation? with
    | none => exact finish operand
    | some base => exact (looks_ofExcept _).next fun value _ => finish value

theorem declare_atomic (type : ValueType) : (declare f type).Atomic m := by
  unfold declare
  split
  · refine looks_get.next fun m₀ _ => (looks_ofExcept _).next fun symbols _ => ?_
    exact Errorless.atomic (.bind (errorless_modify _) fun _ => errorless_edit _) m
  · exact atomic_stop

theorem expandTemplate_atomic (template : String) : (expandTemplate f template).Atomic m :=
  (looks_ofExcept _).next fun _ _ =>
    Errorless.atomic (.bind (errorless_insertPieces _ _ _ _) fun _ => errorless_edit _) m

theorem run_fails {name : String} {properties : List (String × String)} {args : List Value}
    {sink : Sink} {cause : Cause} (failed :
    (Builtin.run name properties args sink).2 = .error cause) :
    (Builtin.run name properties args sink).1 = sink ∨
      (Builtin.ofName? name = some .print ∨ Builtin.ofName? name = some .println) ∧
        cause = .unhandled .writeFailed := by
  have print {ending : String} (failed : (Builtin.printTo sink args ending).2 = .error cause) :
      cause = .unhandled .writeFailed := by
    unfold Builtin.printTo at failed
    split at failed
    · exact (Except.error.inj failed).symm
    · split at failed
      · exact (Except.error.inj failed).symm
      · cases failed
  unfold Builtin.run at failed ⊢
  split
  · exact .inl rfl
  · rename_i named
    rw [named] at failed
    exact .inr ⟨.inl named, print failed⟩
  · rename_i named
    rw [named] at failed
    exact .inr ⟨.inr named, print failed⟩
  · split <;> exact .inl rfl

theorem callBuiltin_atomic (kind : f.cell.token.kind = .keyword .system)
    (accepted : ¬ PrintRefused m f) : (callBuiltin f).Atomic m := by
  unfold callBuiltin
  split
  · exact atomic_stop
  · rename_i target following after
    split
    · exact atomic_stop
    · rename_i name named
      refine looks_get.next ?_
      rintro _ ⟨⟩
      refine (looks_ofExcept _).next ?_
      rintro ⟨args, rest⟩ read
      simp only
      have fails := @run_fails name m.properties args m.sink
      have refused := fun prints wrote =>
        accepted ⟨kind, target, following, name, args, rest, after,
        named, prints, read, wrote⟩
      generalize Builtin.run name m.properties args m.sink = answer at *
      obtain ⟨sink, result⟩ := answer
      cases result with
      | ok value? =>
          refine Errorless.atomic (.bind (errorless_modify _) fun _ => ?_) m
          refine .bind (errorless_of_ok fun _ => ⟨value?, rfl⟩) fun value? =>
            .bind (errorless_emit _) ?_
          intro _
          split
          · exact .bind (errorless_edit _) fun _ => errorless_answer _ _
          · exact errorless_edit _
      | error cause =>
          rcases fails rfl with rfl | ⟨prints, rfl⟩
          · -- The sink that is put back is the one that was there.
            exact fun _ _ => rfl
          · exact absurd rfl (refused prints)

theorem beginCall_atomic {inner rest : List Cell} {close : Cell}
    (kind : f.cell.token.kind = .bracket .call .opening) (expanded : f.cell.token.expanded = true)
    (split : Line.splitClose? .call 0 f.after = some (inner, close, rest)) (unbound : ¬ Binds m f) :
    (beginCall f inner close).Atomic m := by
  unfold beginCall
  cases called : calleeBefore? f with
  | none => exact atomic_stop
  | some callee =>
      obtain ⟨nameRef, name⟩ := callee
      refine looks_get.next ?_
      rintro _ ⟨⟩
      refine (looks_ofExcept _).next fun args read =>
        (looks_ofExcept _).next fun function found => ?_
      refine (looks_ofExcept _).next fun _ checked => ?_
      exact absurd ⟨kind, expanded, inner, close, rest, nameRef, name, args,
        function, split, called, read,
        ofCause_result found, ofCause_result checked⟩ unbound

theorem applyParen_atomic {b : Bracket} (kind : f.cell.token.kind = .bracket b .opening)
    (unbound : ¬ Binds m f) : (applyParen f b).Atomic m := by
  rw [applyParen, Line.enclosed_eq kind, ofFault_ok_bind]
  split
  · exact atomic_stop
  · rename_i inner close rest split
    by_cases new : (!f.cell.token.expanded) = true
    · rw [if_pos new]
      exact Errorless.atomic (.bind (errorless_edit _) fun _ => errorless_edit _) m
    · rw [if_neg new]
      by_cases isCall : b = .call
      · subst isCall
        exact beginCall_atomic kind (by simpa using new) split unbound
      · rw [if_neg isCall]
        split
        · exact atomic_stop
        · split
          · exact Errorless.atomic (.bind (errorless_edit _) fun _ => errorless_edit _) m
          · exact atomic_stop
        · exact atomic_stop

/-!
## Control
-/

theorem takeBranch_atomic (condition : Cell) : (takeBranch f condition).Atomic m := by
  refine (looks_valueOf _).next fun v _ => ?_
  split
  · refine looks_get.next fun m₀ _ => (looks_ofExcept _).next fun block _ => ?_
    refine (looks_emit _).next fun _ _ => ?_
    split
    · exact (errorless_goTo _).atomic m
    · refine (looks_ofExcept _).next fun close _ => (looks_ofExcept _).next fun target _ => ?_
      exact (errorless_goTo _).atomic m
  · exact atomic_stop

theorem branch_atomic : (branch f).Atomic m := by
  refine (looks_asOperand _ _).next fun condition _ => ?_
  split
  · split
    · exact atomic_stop
    · exact takeBranch_atomic condition
  · exact takeBranch_atomic condition

theorem passElse_atomic : (passElse f).Atomic m := by
  refine looks_get.next fun m₀ _ => (looks_ofExcept _).next fun block _ => ?_
  exact (looks_ofExcept _).next fun after _ => (errorless_goTo after).atomic m

theorem startWhile_atomic : (startWhile f).Atomic m := by
  refine looks_get.next fun m₀ _ => (looks_ofExcept _).next fun body _ => ?_
  refine (looks_ofExcept _).next fun line _ => (looks_ofExcept _).next fun condition _ => ?_
  exact Errorless.atomic (.bind (errorless_beginLoop _) fun _ => errorless_testLoop) m

theorem startFor_atomic : (startFor f).Atomic m := by
  refine looks_get.next fun m₀ _ => (looks_ofExcept _).next fun line _ => ?_
  refine (looks_ofExcept _).next fun start _ => ?_
  simp only
  split
  · exact atomic_stop
  · split
    · exact atomic_stop
    · refine (looks_ofExcept _).next fun enclosed _ => ?_
      split
      · exact atomic_stop
      · split
        · refine (looks_ofExcept _).next fun body _ => Errorless.atomic ?_ m
          refine .bind (errorless_beginLoop _) fun _ => ?_
          split
          · exact errorless_workOnHeader _ _ _
          · exact errorless_testLoop
        · exact atomic_stop

theorem jumpToLabel_atomic : (jumpToLabel f).Atomic m := by
  unfold jumpToLabel
  split
  · refine looks_get.next fun m₀ _ => ?_
    split
    · exact atomic_stop
    · refine (looks_ofExcept _).next fun keep _ => Errorless.atomic ?_ m
      exact .bind (errorless_modify _) fun _ => .bind (errorless_emit _) fun _ =>
        errorless_goToLine _
  · exact atomic_stop

theorem jumpBack_atomic : (jumpBack f).Atomic m := by
  refine looks_get.next fun m₀ _ => ?_
  split
  · exact atomic_stop
  · refine Errorless.atomic ?_ m
    exact .bind (errorless_modify _) fun _ => .bind (errorless_emit _) fun _ => errorless_goToLine _

theorem define_atomic : (define f).Atomic m := by
  refine looks_get.next fun m₀ _ => (looks_ofExcept _).next fun line _ => ?_
  refine (looks_ofExcept _).next fun start _ => ?_
  simp only
  split
  · exact atomic_stop
  refine (looks_ofExcept _).next fun enclosed _ => ?_
  split
  · exact atomic_stop
  · refine (looks_ofExcept _).next fun parameters _ => (looks_ofExcept _).next fun body _ => ?_
    refine (looks_emit _).next fun _ _ => ?_
    split
    · exact atomic_stop
    · refine Errorless.atomic (.bind (errorless_modify _) fun _ => ?_) m
      exact .bind (errorless_ofFault _) fun after => errorless_goTo after

theorem closeBlock_atomic (kind : f.cell.token.kind = .closeBrace) (inside : ¬ EndsFunction m f) :
    (closeBlock f).Atomic m := by
  refine looks_get.next ?_
  rintro _ ⟨⟩
  refine Errorless.atomic (.bind (errorless_edit _) fun _ => .bind (errorless_modify _) fun _ =>
    ?_) m
  refine .bind (errorless_emit _) fun _ => ?_
  split
  · exact errorless_nextIteration
  · rename_i noLoop
    split
    · exact errorless_pure _
    · rename_i call calls own
      split
      · rename_i last
        exact absurd ⟨kind, by simpa using noLoop, call, by rw [own]; rfl, last⟩ inside
      · exact errorless_pure _

theorem applyKeyword_atomic {keyword : Keyword} (kind : f.cell.token.kind = .keyword keyword)
    (stays : keyword ≠ .return) (accepted : ¬ PrintRefused m f) :
    (applyKeyword f keyword).Atomic m := by
  cases keyword with
  | «if» => exact branch_atomic
  | «else» => exact passElse_atomic
  | «while» => exact startWhile_atomic
  | «for» => exact startFor_atomic
  | goto => exact jumpToLabel_atomic
  | goback => exact jumpBack_atomic
  | define => exact define_atomic
  | «return» => exact absurd rfl stays
  | system => exact callBuiltin_atomic kind accepted
  | «break» => exact (errorless_modify _).atomic m
  | «continue» => exact (errorless_modify _).atomic m

/-!
## Steps
-/

theorem perform_atomic (acts : m.acting? = some f) (sure : ¬ m.Exempt) : (perform f).Atomic m := by
  unfold perform
  split
  · exact (errorless_openBlock f).atomic m
  · rename_i kind
    exact closeBlock_atomic kind fun ends => sure (.ending f acts ends)
  · rename_i b _ kind
    exact applyParen_atomic kind fun binds => sure (.binding f acts binds)
  · split
    · exact assign_atomic _
    · split
      · exact applyUnary_atomic _
      · exact applyBinary_atomic _
  · exact declare_atomic _
  · exact expandTemplate_atomic _
  · rename_i keyword kind
    refine applyKeyword_atomic kind ?_ fun refused => sure (.printing f acts refused)
    rintro rfl
    exact sure (.returning f acts kind)
  · exact atomic_stop

theorem conclude_fails {result : Option Token} {e : RuntimeError}
    (failed : (conclude result m).result = .error (.error e)) :
    (m.work.purpose = .statement ∧ (signalOf? result).isSome = true) ∨
      (m.work.purpose = .loopCondition ∧ result.isSome = true) := by
  rw [conclude, bind_of_ok _ (show (get m).result = .ok m from rfl)] at failed
  simp only [get_apply] at failed
  cases purpose : m.work.purpose with
  | statement =>
      rw [purpose] at failed
      cases signal : signalOf? result with
      | none =>
          rw [signal] at failed
          exact absurd failed (errorless_goToLine _ m e)
      | some s => exact .inl ⟨rfl, rfl⟩
  | loopInit =>
      rw [purpose] at failed
      exact absurd failed (errorless_testLoop m e)
  | loopStep =>
      rw [purpose] at failed
      exact absurd failed (errorless_testLoop m e)
  | loopCondition =>
      rw [purpose] at failed
      cases result with
      | none => exact absurd failed (errorless_leaveLoop m e)
      | some token => exact .inr ⟨rfl, rfl⟩

/-- A line with one inert token completes; other inert tokens are errors at once. -/
theorem act_atomic (whole : f.cells = m.work.line.cells) (acts : m.acting? = some f)
    (sure : ¬ m.Exempt) : (act f).Atomic m := by
  unfold act
  simp only
  by_cases inert : f.cell.token.kind.isInert = true
  · rw [if_pos inert]
    cases other : f.next? <|> f.prev? with
    | some other => exact atomic_stop
    | none =>
        obtain ⟨after, before⟩ : f.after = [] ∧ f.before = [] := by
          simpa [Focus.next?, Focus.prev?] using other
        have alone : m.work.line.cells = [f.cell] := by
          rw [← whole, Focus.cells, after, before]
          rfl
        have completes : ∀ e,
            ((do remove f.cell.ref; conclude (some f.cell.token) : Action Unit) m).result ≠
              .error (.error e) := by
          intro e failed
          have removed := Machine.remove_alone whole before after
          rw [bind_of_ok _ (show (remove f.cell.ref m).result = .ok () by rw [removed]),
            removed] at failed
          rcases conclude_fails failed with ⟨purpose, signals⟩ | ⟨purpose, -⟩
          · cases kind : f.cell.token.kind with
            | signal signal => exact sure (.signalling f.cell signal alone purpose kind)
            | _ => simp [signalOf?, kind] at signals
          · exact sure (.deciding f.cell alone purpose inert)
        exact fun e failed => absurd failed (completes e)
  · rw [if_neg inert]
    refine looks_get.next fun m₀ _ => (looks_emit _).next fun _ _ => ?_
    exact perform_atomic acts sure

theorem step_eq_act {r : Ref} (running : m.finished = false) (picked : choice? m.work = some r)
    (found : m.work.line.focus r = .ok f) :
    step m = act f { m with work := { m.work with selected := none } } := by
  have filled : m.work.line.isEmpty = false := by
    rw [Line.isEmpty, ← (Line.focus_ok found).1, Focus.cells]
    simp
  unfold step
  rw [bind_of_ok _ (show (get m).result = .ok m from rfl)]
  simp [running, filled, picked, found, bind_apply, ofFault, orFault]

theorem step_eq_act_of_error {e : RuntimeError} (running : m.finished = false)
    (acts : m.acting? = some f) (failed : (step m).result = .error (.error e)) :
    step m = act f { m with work := { m.work with selected := none } } := by
  obtain ⟨r, picked, located⟩ := Option.bind_eq_some_iff.1 acts
  cases found : m.work.line.focus r with
  | ok g =>
      obtain rfl : g = f := Option.some.inj ((Line.focus_ok_iff.1 found).1.symm.trans located)
      exact step_eq_act running picked found
  | error fault =>
      have filled : m.work.line.isEmpty = false := by
        rw [Line.isEmpty, ← Line.cells_focus? located, Focus.cells]
        simp
      rw [step, bind_of_ok _ (show (get m).result = .ok m from rfl)] at failed
      simp [running, filled, picked, found, bind_apply, ofFault, orFault] at failed

theorem act_brace_errorless (kind : f.cell.token.kind = .openBrace) : (act f).Errorless := by
  unfold act
  simp only
  rw [if_neg (by rw [kind]; decide)]
  refine .bind errorless_get fun _ => .bind (errorless_emit _) fun _ => ?_
  unfold perform
  rw [kind]
  exact errorless_openBlock f

theorem step_atomic {p : Program} {n : Nat} (sane : m.Sane p n) (sure : ¬ m.Exempt) :
    step.Atomic m := by
  intro e failed
  -- A line without a result has nothing that could be wrong.
  have done (m₀ : Machine) : (conclude none m₀).result ≠ .error (.error e) := by
    intro failed
    rcases conclude_fails failed with ⟨-, h⟩ | ⟨-, h⟩ <;> cases h
  cases running : m.finished with
  | true =>
      rw [step, bind_of_ok _ (show (get m).result = .ok m from rfl)] at failed
      simp [running] at failed
  | false =>
      cases picked : choice? m.work with
      | none =>
          exfalso
          rw [step, bind_of_ok _ (show (get m).result = .ok m from rfl)] at failed
          simp only [running, Bool.false_eq_true, if_false, picked] at failed
          split at failed
          · exact done _ failed
          · exact done _ failed
      | some r =>
          obtain ⟨f, found⟩ := choice?_linked picked
          have acts : m.acting? = some f := by simp [Machine.acting?, picked, found]
          have whole := Line.cells_focus? found
          have acting := step_eq_act_of_error running acts failed
          rw [acting] at failed ⊢
          cases selected : m.work.selected with
          | none =>
              have same : ({ m with work := { m.work with selected := none } } : Machine) = m := by
                rw [← selected]
              rw [same] at failed ⊢
              exact act_atomic whole acts sure e failed
          | some s =>
              -- What is selected is a brace at the start of the line, which is picked.
              exfalso
              obtain ⟨c, rest, cells, rfl, kind⟩ := sane.work.selected s selected
              have first : m.work.line.focus? c.ref = some ⟨[], c, rest⟩ :=
                Line.focus?_eq_some sane.work.sound.distinct (f := ⟨[], c, rest⟩)
                  (by rw [cells]; rfl)
              have top : choice? m.work = some c.ref := by
                simp [choice?, selected, first, kind, TokenKind.openBrace, TokenKind.isInert]
              obtain rfl : c.ref = r := Option.some.inj (top.symm.trans picked)
              obtain rfl : (⟨[], c, rest⟩ : Focus) = f := Option.some.inj (first.symm.trans found)
              exact act_brace_errorless kind _ e failed

end Action

/-- A step of a run of a loaded script that fails leaves the machine as it was. -/
theorem Machine.failed_step_unchanged {source : String} {p : Program}
    (loaded : Program.load source = .ok p) (settings : Settings) {k : Nat} {m : Machine}
    (reached : (Machine.start p settings).machine.after k = .ok m) (sure : ¬ m.Exempt) {stop : Stop}
    (failed : m.step.result = .error stop) : m.step.machine = m := by
  obtain ⟨n, nests⟩ := p.exists_nestsBelow
  have sane := sane_after loaded settings nests reached
  cases stop with
  | error e => exact Action.step_atomic sane sure e failed
  | fault fault =>
      exact absurd failed (sane.step_noFault (Program.balanced_of_load loaded)
        (Program.bounded_of_load loaded nests) fault)

def lostScript : String :=
  "def int lost(int n) \x7b\nwhile true \x7b\nint k = n\ngoto nowhere\n\x7d
return 1\n\x7d\nint x = 2 + lost(3)"

theorem Machine.failed_step_unchanged_lostScript :
    Program.load lostScript = .ok (programOf lostScript) ∧
      (stateOf lostScript 9).calls.length = 1 ∧ (stateOf lostScript 9).symbols.depth = 3 ∧
      (stateOf lostScript 9).step.result = .error (.at 4 (.undefinedLabel "nowhere")) ∧
      ¬ (stateOf lostScript 9).Exempt ∧
      (stateOf lostScript 9).step.machine = stateOf lostScript 9 := by
  have checked : (Program.load lostScript).toOption.isSome = true ∧
      ((Machine.start (programOf lostScript) {}).machine.after 9).toOption.isSome = true ∧
      (stateOf lostScript 9).calls.length = 1 ∧ (stateOf lostScript 9).symbols.depth = 3 ∧
      (match (stateOf lostScript 9).step.result with
        | .error stop => some stop
        | .ok _ => none) = some (.at 4 (.undefinedLabel "nowhere")) ∧
      (stateOf lostScript 9).acting?.map (fun f => f.cell.token.kind) = some (.keyword .goto) ∧
      (stateOf lostScript 9).work.line.cells.length = 2 := by
    decide +kernel
  obtain ⟨isSome, runs, calls, depth, fails, goto, length⟩ := checked
  have loaded : Program.load lostScript = .ok (programOf lostScript) := Except.eq_ok_getD isSome _
  have reached : (Machine.start (programOf lostScript) {}).machine.after 9 =
      .ok (stateOf lostScript 9) := Except.eq_ok_getD runs _
  have failed : (stateOf lostScript 9).step.result =
    .error (.at 4 (.undefinedLabel "nowhere")) := by
    split at fails
    · rename_i stop result
      rw [result, Option.some.inj fails]
    · cases fails
  have other {f : Focus} (acts : (stateOf lostScript 9).acting? = some f) :
      f.cell.token.kind = .keyword .goto := by
    rw [acts] at goto
    exact Option.some.inj goto
  have sure : ¬ (stateOf lostScript 9).Exempt := by
    intro exempt
    cases exempt with
    | binding f acts binds => exact absurd ((other acts).symm.trans binds.1) nofun
    | returning f acts kind => exact absurd ((other acts).symm.trans kind) nofun
    | ending f acts ends => exact absurd ((other acts).symm.trans ends.1) nofun
    | signalling c signal alone => simp [alone] at length
    | deciding c alone => simp [alone] at length
    | printing f acts refused => exact absurd ((other acts).symm.trans refused.1) nofun
  exact ⟨loaded, calls, depth, failed, sure, failed_step_unchanged loaded {} reached sure failed⟩

end LineScript
