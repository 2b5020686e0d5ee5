import LineScript.Proofs.Loading.Structure
import LineScript.Proofs.References.Steps

/-!
# No reference dangles

A script has no word for a reference, so a run starts on a grounded machine and stays on grounded
ones.  A call through a variable therefore finds the function that the variable refers to
(`Machine.references_known`).
-/

namespace LineScript

namespace Machine

variable {m m' : Machine}

theorem Grounded.after (grounded : m.Grounded) {k : Nat} (reached : m.after k = .ok m') :
    m.functions.Underlie m' := by
  apply after_induction reached ⟨grounded, .refl _⟩
  intro m₁ m₂ underlies step
  have later := underlies.grounded.next step
  exact ⟨later.grounded, underlies.within.trans later.within⟩

end Machine

/-- A script has no word for a reference and none for the type of references. -/
theorem Program.covers_of_load {source : String} {p : Program}
    (loaded : Program.load source = .ok p)
    (fs : Functions) : ∀ line ∈ p.lines, fs.Covers line.cells := by
  obtain ⟨ls, s, scanned, read, -, -, lines, -⟩ := exists_reading loaded
  have scannable := Lexeme.scannable_of_mem scanned
  have order := Draft.inOrder_empty.addAll Draft.matched_empty scannable read
  have spelled := Draft.spelled_addAll Draft.matched_empty scannable read
  intro line member c hc
  have token : c.token ∈ s.tokens := by
    rw [← s.tokens_closeLine]
    refine List.mem_append_left _ (List.mem_flatMap.2 ⟨line, lines ▸ member, ?_⟩)
    exact List.mem_map_of_mem hc
  have isRead := order.read c.token token
  have lexeme : c.token.spelled ∈ ls := by
    have kept := List.mem_map_of_mem (f := Token.spelled) token
    rw [spelled] at kept
    exact Lexeme.mem_of_mem_kept kept
  have scanned := scannable _ lexeme
  cases kind : c.token.kind with
  | literal v =>
      cases v with
      | function name =>
          rw [kind] at isRead
          cases isRead
      | _ => trivial
  | type type =>
      rw [Token.spelled, kind] at scanned
      rcases scanned with spelled | ⟨x, float⟩
      · exact spelled.2
      · cases float
  | _ => trivial

/-!
## Calls through a variable
-/

namespace Action

variable {α β : Type} {x : Action α} {g : α → Action β} {m : Machine} {f : Focus}

def Finds (x : Action α) (m : Machine) : Prop :=
  ∀ e, (x m).result = .error (.error e) → e.cause.kind ≠ .noFunction

theorem Finds.bind (first : x.Finds m)
    (second : ∀ a, (x m).result = .ok a → (g a).Finds (x m).machine) : (x >>= g).Finds m := by
  intro e failed
  cases ran : (x m).result with
  | error stop =>
      rw [bind_of_error g ran] at failed
      cases failed
      exact first e ran
  | ok a =>
      rw [bind_of_ok g ran] at failed
      exact second a ran e failed

theorem Errorless.finds (never : x.Errorless) : x.Finds m :=
  fun e failed => absurd failed (never m e)

theorem finds_fail {line : Nat} {cause : Cause} (other : cause.kind ≠ .noFunction) :
    (fail line cause : Action α).Finds m := by
  intro e failed
  cases failed
  exact other

theorem finds_ofCause {line : Nat} {y : Except Cause α}
    (other : ∀ cause, y = .error cause → cause.kind ≠ .noFunction) : (ofCause line y).Finds m := by
  intro e failed
  cases y with
  | error cause =>
      cases failed
      exact other cause rfl
  | ok a => cases failed

theorem valueOf_finds {t : Token} {e : RuntimeError} (failed : m.valueOf t = .error (.error e)) :
    e.cause.kind ≠ .noFunction := by
  unfold Machine.valueOf at failed
  split at failed
  · cases failed
  · unfold Machine.valueOfName at failed
    split at failed
    · cases failed
    · split at failed
      · cases failed
      · cases failed
        nofun
  · cases failed
    nofun

theorem readArguments_finds {close : Cell} {read : List Value} {expecting : Bool}
    {cells : List Cell}
    {e : RuntimeError} (failed : readArguments m close read expecting cells = .error (.error e)) :
    e.cause.kind ≠ .noFunction := by
  induction cells generalizing read expecting with
  | nil =>
      simp only [readArguments] at failed
      split at failed
      · cases failed
        rintro ⟨⟩
      · cases failed
  | cons c cs ih =>
      simp only [readArguments] at failed
      split at failed
      · exact ih failed
      · split at failed
        · cases value : m.valueOf c.token with
          | error stop =>
              simp only [value, Except.bind_eq_bind, Except.bind_error] at failed
              cases failed
              exact valueOf_finds value
          | ok v =>
              simp only [value, Except.bind_eq_bind, Except.bind_ok] at failed
              exact ih failed
        · cases failed
          rintro ⟨⟩

theorem checkArguments_finds {function : Function} {args : List Value} {cause : Cause}
    (failed : checkArguments function args = .error cause) : cause.kind ≠ .noFunction := by
  unfold checkArguments at failed
  split at failed
  · cases failed
    nofun
  · split at failed
    · cases failed
      nofun
    · cases failed

theorem bindParameters_finds (line : Nat) (params : List (Parameter × Value)) :
    (bindParameters line params).Finds m := by
  induction params generalizing m with
  | nil => exact (errorless_pure ()).finds
  | cons param params ih =>
      refine errorless_get.finds.bind fun m₀ _ => .bind (finds_ofCause ?_) fun symbols _ => ?_
      · intro cause failed
        unfold Symbols.add at failed
        split at failed
        · cases failed
          nofun
        · split at failed
          · cases failed
            nofun
          · cases failed
      · exact (errorless_modify _).finds.bind fun _ _ => ih

theorem beginCall_finds {inner : List Cell} {close : Cell} {ref : Ref} {name : String}
    {function : Function} (callee : calleeBefore? f = some (ref, name))
    (found : m.callee name = .ok function) : (beginCall f inner close).Finds m := by
  unfold beginCall
  simp only [callee]
  refine errorless_get.finds.bind ?_
  rintro _ ⟨⟩
  refine .bind (fun e failed => readArguments_finds failed) fun args _ => ?_
  refine .bind (finds_ofCause fun cause failed => ?_) fun function' _ => ?_
  · rw [found] at failed
    cases failed
  · refine .bind (finds_ofCause fun cause failed => checkArguments_finds failed) fun _ _ => ?_
    refine (errorless_modify _).finds.bind fun _ _ => (errorless_modify _).finds.bind fun _ _ => ?_
    refine (bindParameters_finds _ _).bind fun _ _ => errorless_get.finds.bind fun _ _ => ?_
    refine (errorless_emit _).finds.bind fun _ _ =>
      (errorless_ofFault _).finds.bind fun start _ => ?_
    exact (errorless_goTo start).finds

theorem applyParen_finds {ref : Ref} {name : String} {function : Function}
    (callee : calleeBefore? f = some (ref, name)) (found : m.callee name = .ok function) :
    (applyParen f .call).Finds m := by
  unfold applyParen
  refine (errorless_ofFault _).finds.bind fun enclosed _ => ?_
  split
  · exact finds_fail nofun
  · split
    · exact (errorless_edit _).finds.bind fun _ _ => (errorless_edit _).finds
    · exact beginCall_finds callee found

end Action

namespace Machine

theorem next_finds {m : Machine} {f : Focus} {ref : Ref} {name : String} {function : Function}
    (acts : m.acting? = some f) (kind : f.cell.token.kind = .bracket .call .opening)
    (callee : Action.calleeBefore? f = some (ref, name)) (found : m.callee name = .ok function)
    {e : RuntimeError} (failed : m.next = .error (.error e)) : e.cause.kind ≠ .noFunction := by
  cases running : m.finished with
  | true =>
      rw [next_finished running] at failed
      cases failed
  | false =>
      have result : (Action.step m).result = .error (.error e) := by
        unfold next Action.outcome at failed
        cases ran : (Action.step m).result with
        | error stop =>
            rw [ran] at failed
            cases failed
            rfl
        | ok u =>
            rw [ran] at failed
            cases failed
      rw [Action.step_eq_act_of_error running acts result] at result
      have acting : (Action.act f).Finds { m with work := { m.work with selected := none } } := by
        unfold Action.act Action.perform
        simp only [kind]
        refine Action.errorless_get.finds.bind fun _ _ => ?_
        exact (Action.errorless_emit _).finds.bind fun _ _ => Action.applyParen_finds callee found
      exact acting e result

theorem Grounded.callee {m : Machine} (grounded : m.Grounded) {name target : String} {v : Variable}
    (bound : m.symbols.get? name = some v) (refers : v.value = .function target) :
    ∃ function, m.functions.get? target = some function ∧ m.callee name = .ok function := by
  have known := grounded.symbols.get? bound
  rw [refers] at known
  obtain ⟨function, found⟩ := Option.isSome_iff_exists.1 known
  obtain ⟨value, type, origin⟩ := v
  cases refers
  exact ⟨function, found, by simp [Machine.callee, bound, found]⟩

theorem grounded_after {source : String} {p : Program} (loaded : Program.load source = .ok p)
    (settings : Settings) {k : Nat} {m : Machine}
    (reached : (Machine.start p settings).machine.after k = .ok m) : m.Grounded := by
  have initial : (Machine.initial p settings).Grounded :=
    ⟨p.covers_of_load loaded _, List.forall_mem_nil _, Functions.covers_nil, List.forall_mem_nil _⟩
  have started := start_of_leads
    ((Action.goToLine_fetches 0).mono fun _ fetches => fetches.underlaid initial)
  exact (started.grounded.after reached).grounded

/-- Every reference of a reachable machine names a function, a function stays as it is, and a call
through a variable finds the function that the variable refers to. -/
theorem references_known {source : String} {p : Program} (loaded : Program.load source = .ok p)
    (settings : Settings) {k : Nat} {m : Machine}
    (reached : (Machine.start p settings).machine.after k = .ok m) :
    (∀ b ∈ m.symbols.bindings, ∀ target, b.2.value = .function target →
      m.functions.contains target = true) ∧
    (∀ line ∈ m.lines, ∀ c ∈ line.cells, ∀ target, c.token.kind = .literal (.function target) →
      m.functions.contains target = true) ∧
    (∀ j m', m.after j = .ok m' →
      ∀ name f, m.functions.get? name = some f → m'.functions.get? name = some f) ∧
    ∀ f ref name v target, m.acting? = some f → f.cell.token.kind = .bracket .call .opening →
      Action.calleeBefore? f = some (ref, name) → m.symbols.get? name = some v →
      v.value = .function target →
        (∃ function, m.functions.get? target = some function ∧ m.callee name = .ok function) ∧
        ∀ e, m.next = .error (.error e) → e.cause.kind ≠ .noFunction := by
  have grounded := grounded_after loaded settings reached
  refine ⟨?_, ?_, fun j m' later => (grounded.after later).within, ?_⟩
  · intro b member target refers
    have known := grounded.symbols b member
    rwa [refers] at known
  · intro line member c hc target refers
    have covers : m.functions.Covers line.cells := by
      rcases List.mem_cons.1 member with rfl | saved
      · exact grounded.work
      · obtain ⟨call, active, rfl⟩ := List.mem_map.1 saved
        exact grounded.saved call active
    have admits := covers c hc
    rwa [refers] at admits
  · intro f ref name v target acts kind callee bound refers
    obtain ⟨function, found, resolves⟩ := grounded.callee bound refers
    exact ⟨⟨function, found, resolves⟩, fun e failed => next_finds acts kind callee resolves failed⟩

def referenceScript : String :=
  "def int inc(int n) \x7b\nreturn n + 1\n\x7d\ng = inc\nsystem println g, (h = g), g(3)"

theorem references_known_referenceScript :
    Program.load referenceScript = .ok (programOf referenceScript) ∧
      (∃ call ∈ (stateOf referenceScript 8).calls, ∃ c ∈ call.saved.line.cells,
        c.token.kind = .literal (.function "inc")) ∧
      (stateOf referenceScript 8).functions.contains "inc" = true ∧
      ∃ f ref v, (stateOf referenceScript 7).acting? = some f ∧
        f.cell.token.kind = .bracket .call .opening ∧
        Action.calleeBefore? f = some (ref, "g") ∧
        (stateOf referenceScript 7).symbols.get? "g" = some v ∧ v.value = .function "inc" ∧
        ∀ e, (stateOf referenceScript 7).next = .error (.error e) → e.cause.kind ≠ .noFunction := by
  have checked : (Program.load referenceScript).toOption.isSome = true ∧
      (∀ k < 9,
        ((Machine.start (programOf referenceScript) {}).machine.after k).toOption.isSome = true) ∧
      (∃ call ∈ (stateOf referenceScript 8).calls, ∃ c ∈ call.saved.line.cells,
        c.token.kind = .literal (.function "inc")) ∧
      (stateOf referenceScript 7).acting?.map (fun f => f.cell.token.kind) =
        some (.bracket .call .opening) ∧
      (stateOf referenceScript 7).acting?.bind Action.calleeBefore? = some (10, "g") ∧
      (stateOf referenceScript 7).symbols.get? "g" =
        some ⟨.function "inc", .function, .declaration⟩ := by
    decide +kernel
  obtain ⟨isSome, all, saved, kind, callee, bound⟩ := checked
  have loaded : Program.load referenceScript = .ok (programOf referenceScript) :=
    Except.eq_ok_getD isSome _
  have reached (k : Nat) (lt : k < 9) :
      (Machine.start (programOf referenceScript) {}).machine.after k =
        .ok (stateOf referenceScript k) :=
    Except.eq_ok_getD (all k lt) _
  obtain ⟨-, -, -, through⟩ := references_known loaded {} (reached 7 (by decide))
  obtain ⟨-, literals, -, -⟩ := references_known loaded {} (reached 8 (by decide))
  obtain ⟨f, acts, opening⟩ := Option.map_eq_some_iff.1 kind
  rw [acts] at callee
  refine ⟨loaded, saved, ?_, f, 10, _, acts, opening, callee, bound, rfl, ?_⟩
  · obtain ⟨call, active, c, hc, refers⟩ := saved
    exact literals _ (List.mem_cons_of_mem _ (List.mem_map_of_mem active)) c hc "inc" refers
  · exact (through f 10 "g" _ "inc" acts opening callee bound rfl).2

end Machine

end LineScript
