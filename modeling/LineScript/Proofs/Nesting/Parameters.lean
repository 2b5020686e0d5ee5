import LineScript.Proofs.Branches.Selection
import LineScript.Proofs.ErrorLine
import LineScript.Proofs.Nesting.Transparency
import LineScript.Proofs.References.Reachable
import LineScript.Proofs.Returning

/-!
# Parameters of active calls

Parameters are variables like all others, so their names are taken for as long as the scope of the
call is open.  In a program without jumps that is until the call returns: whatever a step opens or
closes, the scopes of all active calls are below it.  So a function with parameters is active at
most once, and a call of one that is active redeclares its first parameter (`Machine.active_once`).
-/

namespace LineScript

open Scope

def Call.BoundIn (c : Call) (s : Symbols) : Prop :=
  ∃ base : Symbols, base.depth = c.scopes + 1 ∧ base.Extends s ∧
    ∀ q ∈ c.function.parameters, base.signature.lookup q.name = some (q.type, .parameter)

namespace Call.BoundIn

variable {c : Call} {s s' : Symbols} {q : Parameter}

theorem grows (bound : c.BoundIn s) (grows : s.Grows s') : c.BoundIn s' := by
  obtain ⟨base, depth, extends_, parameters⟩ := bound
  exact ⟨base, depth, extends_.grows grows, parameters⟩

theorem push (bound : c.BoundIn s) : c.BoundIn s.push := by
  obtain ⟨base, depth, extends_, parameters⟩ := bound
  exact ⟨base, depth, extends_.push, parameters⟩

theorem popMany (bound : c.BoundIn s) {n : Nat} (open_ : c.scopes < (Symbols.popMany n s).depth) :
    c.BoundIn (Symbols.popMany n s) := by
  obtain ⟨base, depth, extends_, parameters⟩ := bound
  refine ⟨base, depth, extends_.popMany ?_, parameters⟩
  rw [Symbols.depth_popMany] at open_
  omega

theorem lookup (bound : c.BoundIn s) (member : q ∈ c.function.parameters) :
    s.signature.lookup q.name = some (q.type, .parameter) := by
  obtain ⟨base, -, extends_, parameters⟩ := bound
  exact extends_.names.lookup_eq_some (parameters q member)

theorem get? (bound : c.BoundIn s) (member : q ∈ c.function.parameters) :
    ∃ v, s.get? q.name = some v ∧ v.type = q.type ∧ v.origin = .parameter := by
  have found := bound.lookup member
  rw [Symbols.lookup_signature] at found
  obtain ⟨v, here, same⟩ := Option.map_eq_some_iff.1 found
  obtain ⟨type, origin⟩ := Prod.mk.inj same
  exact ⟨v, here, type, origin⟩

theorem contains (bound : c.BoundIn s) (member : q ∈ c.function.parameters) :
    s.contains q.name = true := by
  obtain ⟨v, here, -⟩ := bound.get? member
  rw [Symbols.contains, here]
  rfl

end Call.BoundIn

namespace Machine

variable {m m' : Machine} {p : Program} {stack : List Scope}

/-!
## Active functions
-/

/-- All active calls are of functions that are known by their names, each of those with parameters
is active once, and all parameters are bound. -/
structure Reserved (m : Machine) : Prop where
  known : ∀ c ∈ m.calls, m.functions.get? c.function.name = some c.function
  once : m.calls.Pairwise fun c d => c.function.name = d.function.name → c.function.parameters = []
  bound : ∀ c ∈ m.calls, c.BoundIn m.symbols

theorem Reserved.remain (reserved : m.Reserved) (within : m.functions.Within m'.functions)
    (calls : m'.calls <:+ m.calls) (bound : ∀ c ∈ m'.calls, c.BoundIn m.symbols →
    c.BoundIn m'.symbols) :
    m'.Reserved := by
  constructor
  · intro c member
    exact within _ _ (reserved.known c (calls.subset member))
  · exact reserved.once.sublist calls.sublist
  · intro c member
    exact bound c member (reserved.bound c (calls.subset member))

theorem Reserved.apart (reserved : m.Reserved) {c d : Call} (received : m.Receives c m')
    (active : d ∈ m.calls) (same : c.function.name = d.function.name) :
    c.function.parameters = [] := by
  have function : c.function = d.function := by
    have known := received.known
    rw [same, reserved.known d active] at known
    exact (Option.some.inj known).symm
  apply List.eq_nil_iff_forall_not_mem.2
  intro q member
  have taken := (reserved.bound d active).contains (by rwa [← function])
  rw [received.free q member] at taken
  cases taken

theorem Reserved.enter (reserved : m.Reserved) (within : m.functions.Within m'.functions) {c : Call}
    (calls : m'.calls = c :: m.calls) (scopes : c.scopes = m.symbols.depth)
    (symbols : m.symbols.push.Grows m'.symbols) (received : m.Receives c m') : m'.Reserved := by
  constructor
  · rw [calls]
    intro d member
    apply within
    rcases List.mem_cons.1 member with rfl | member
    · exact received.known
    · exact reserved.known d member
  · rw [calls, List.pairwise_cons]
    exact ⟨fun d active same => reserved.apart received active same, reserved.once⟩
  · rw [calls]
    intro d member
    rcases List.mem_cons.1 member with rfl | member
    · refine ⟨m'.symbols, ?_, .refl _, received.bound⟩
      rw [symbols.depth, Symbols.depth_push, scopes]
    · exact (reserved.bound d member).push.grows symbols

/-- Every step keeps the functions apart, as long as it leaves the scopes of active calls open. -/
theorem Reserved.step (reserved : m.Reserved) (within : m.functions.Within m'.functions)
    (turn : m.Turn m') (open_ : ∀ c ∈ m'.calls, c.scopes < m'.symbols.depth) : m'.Reserved := by
  -- Closed scopes are those above all calls that are still active.
  have closing {n : Nat} (symbols : m'.symbols = Symbols.popMany n m.symbols) :
      ∀ c ∈ m'.calls, c.BoundIn m.symbols → c.BoundIn m'.symbols := by
    intro c member bound
    have above := open_ c member
    rw [symbols] at above ⊢
    exact bound.popMany above
  cases turn with
  | grows symbols calls =>
      apply reserved.remain within (calls ▸ List.suffix_rfl)
      exact fun c _ bound => bound.grows symbols
  | opens symbols calls =>
      apply reserved.remain within (calls ▸ List.suffix_rfl)
      intro c _ bound
      rw [symbols]
      exact bound.push
  | closes closes =>
      obtain ⟨n, symbols⟩ := closes.symbols
      exact reserved.remain within (closes.calls ▸ List.suffix_rfl) (closing symbols)
  | enters c calls scopes symbols received =>
      exact reserved.enter within calls scopes symbols received
  | returns c calls symbols =>
      apply reserved.remain within (by rw [calls]; exact List.suffix_cons _ _)
      rcases symbols with symbols | symbols
      · exact closing symbols
      · exact closing (n := m.symbols.pop.depth - c.scopes + 1) symbols

theorem reserved_of_calls (none : m.calls = []) : m.Reserved := by
  constructor <;> rw [none]
  · exact List.forall_mem_nil _
  · exact .nil
  · exact List.forall_mem_nil _

theorem Nested.scopes_lt (nested : m.Nested p stack) : ∀ c ∈ m.calls,
    c.scopes < m.symbols.depth := by
  intro c member
  rw [nested.stands.mirrors.calls] at member
  rw [nested.stands.mirrors.depth]
  exact nested.counted.call_lt member

theorem Nested.running (nested : m.Nested p stack) {c : Call} (active : c ∈ m.calls) :
    m.finished = false := by
  apply Bool.eq_false_iff.2
  intro finished
  rw [nested.stands.mirrors.calls, nested.nil_of_finished finished] at active
  cases active

theorem Reserved.after (reserved : m.Reserved) (nested : m.Nested p stack) (grounded : m.Grounded)
    (balanced : p.Balanced) (structured : p.BlockStructured) (jumpless : p.GotoFree) {k : Nat}
    (reached : m.after k = .ok m') : m'.Reserved ∧ ∃ stack', m'.Nested p stack' := by
  -- References matter since they keep functions what they are.
  suffices all : m'.Reserved ∧ m'.Grounded ∧ ∃ stack', m'.Nested p stack' from ⟨all.1, all.2.2⟩
  apply after_induction reached ⟨reserved, grounded, stack, nested⟩
  rintro m₁ m₂ ⟨reserved₁, grounded₁, stack₁, nested₁⟩ step
  obtain ⟨stack₂, nested₂⟩ :=
    (nested₁.steps balanced structured (nested₁.jumpsWell jumpless) step).nested
  have underlies := grounded₁.next step
  have reserved₂ := reserved₁.step underlies.within (turn_of_next step) nested₂.scopes_lt
  exact ⟨reserved₂, underlies.grounded, stack₂, nested₂⟩

/-!
## Calls of active functions
-/

/-- A call by this name is one of the function: a variable of the name refers to it, or the name is
the function's own and no variable of that name is a reference. -/
inductive Names (m : Machine) (name target : String) : Prop where
  | reference (v : Variable) (bound : m.symbols.get? name = some v)
      (refers : v.value = .function target)
  | own (same : name = target)
      (other : ∀ v g, m.symbols.get? name = some v → v.value ≠ .function g)

/-- The token to act on is the parenthesis of a call of a function, whose reduced arguments are of
the types of the parameters. -/
structure Invokes (m : Machine) (f : Focus) (function : Function) : Prop where
  acts : m.acting? = some f
  kind : f.cell.token.kind = .bracket .call .opening
  expanded : f.cell.token.expanded = true
  called : ∃ inner close rest ref name args,
    Line.splitClose? .call 0 f.after = some (inner, close, rest) ∧
    Action.calleeBefore? f = some (ref, name) ∧ m.Names name function.name ∧
    Action.readArguments m close [] true inner = .ok args ∧
    args.map Value.type = function.parameters.map Parameter.type

theorem Names.callee {name target : String} {function : Function} (names : m.Names name target)
    (known : m.functions.get? target = some function) : m.callee name = .ok function := by
  cases names with
  | reference v bound refers =>
      obtain ⟨value, type, origin⟩ := v
      cases refers
      simp [Machine.callee, bound, known]
  | own same other =>
      subst same
      unfold Machine.callee
      split
      · rename_i bound
        exact absurd rfl (other _ _ bound)
      · simp only [known]

end Machine

namespace Action

variable {m : Machine} {f : Focus} {function : Function} {args : List Value}

theorem checkArguments_of_types
    (types : args.map Value.type = function.parameters.map Parameter.type) :
    checkArguments function args = .ok () := by
  have count : args.length = function.parameters.length := by
    have := congrArg List.length types
    rwa [List.length_map, List.length_map] at this
  have fits : ∀ pair ∈ function.parameters.zip args, pair.2.type = pair.1.type := by
    intro pair member
    obtain ⟨i, here⟩ := List.getElem?_of_mem member
    rw [List.getElem?_zip_eq_some] at here
    have same := congrArg (·[i]?) types
    simp only [List.getElem?_map, here.1, here.2, Option.map_some] at same
    exact Option.some.inj same
  unfold checkArguments
  rw [if_neg (by omega), List.find?_eq_none.2]
  rintro ⟨p, v⟩ member
  simp [fits (p, v) member]

theorem bindParameters_redeclares {q : Parameter} (taken : m.symbols.contains q.name = true)
    (line : Nat) (v : Value) (rest : List (Parameter × Value)) :
    (bindParameters line ((q, v) :: rest)).outcome m = .error (.at line (.redeclared q.name)) := by
  rw [bindParameters, outcome_bind_of_ok (outcome_get m)]
  apply outcome_bind_of_error
  rw [outcome_ofCause, Symbols.add, if_pos taken]
  rfl

/-- A call is refused at the first parameter, if its name is taken. -/
theorem beginCall_redeclares {inner : List Cell} {close : Cell} {ref : Ref} {name : String}
    (before : calleeBefore? f = some (ref, name))
    (read : readArguments m close [] true inner = .ok args) (found : m.callee name = .ok function)
    (checked : checkArguments function args = .ok ()) {q : Parameter} {more : List Parameter}
    (first : function.parameters = q :: more) (taken : m.symbols.contains q.name = true) :
    (beginCall f inner close).outcome m = .error (.at f.cell.token.line (.redeclared q.name)) := by
  obtain ⟨v, others, pairs⟩ : ∃ v others, function.parameters.zip args = (q, v) :: others := by
    have same := parameters_of_checkArguments checked
    rw [first] at same ⊢
    cases args with
    | nil => cases same
    | cons v others => exact ⟨v, more.zip others, rfl⟩
  have arguments : (ofExcept (readArguments m close [] true inner)).outcome m = .ok (args, m) := by
    rw [outcome_ofExcept, read]
    rfl
  have callee : (ofCause f.cell.token.line (m.callee name)).outcome m = .ok (function, m) := by
    rw [outcome_ofCause, found]
    rfl
  have right : (ofCause f.cell.token.line (checkArguments function args)).outcome m =
    .ok ((), m) := by
    rw [outcome_ofCause, checked]
    rfl
  unfold beginCall
  simp only [before]
  rw [outcome_bind_of_ok (outcome_get m), outcome_bind_of_ok arguments, outcome_bind_of_ok callee,
    outcome_bind_of_ok right, outcome_bind_of_ok (outcome_modify _ m),
    outcome_bind_of_ok Machine.outcome_newScope_none, pairs]
  refine outcome_bind_of_error (bindParameters_redeclares ?_ _ v others)
  exact taken

end Action

namespace Machine

variable {m : Machine} {p : Program} {f : Focus} {function : Function}

theorem Invokes.redeclares (invokes : m.Invokes f function) (running : m.finished = false)
    (distinct : m.work.line.Distinct)
    (known : m.functions.get? function.name = some function) {q : Parameter} {more : List Parameter}
    (first : function.parameters = q :: more) (taken : m.symbols.contains q.name = true) :
    m.next = .error (.at f.cell.token.line (.redeclared q.name)) := by
  obtain ⟨inner, close, rest, ref, name, args, split, before, names, read, types⟩ := invokes.called
  rw [← Action.readArguments_unselected] at read
  have refused := Action.beginCall_redeclares before read (names.callee known)
    (Action.checkArguments_of_types types) first taken
  rw [next_acting running distinct invokes.acts, Action.outcome_act_paren invokes.kind (by decide)]
  rw [Action.applyParen, Line.enclosed_eq invokes.kind, Action.ofFault_ok_bind]
  simp only [split, invokes.expanded, Bool.not_true, Bool.false_eq_true, if_false, if_true]
  rw [refused]
  rfl

/-- In a run of a program without jumps, a function with parameters is active at most once.  Until
its call returns, all its parameters are variables of their types, and a call of it with the right
arguments, direct or through a reference, redeclares the first of them. -/
theorem active_once {source : String} (loaded : Program.load source = .ok p)
    (structured : p.BlockStructured) (jumpless : p.GotoFree) (settings : Settings) {k : Nat}
    (reached : (Machine.start p settings).machine.after k = .ok m) :
    (m.calls.Pairwise fun c d => c.function.name = d.function.name → c.function.parameters = []) ∧
    ∀ c ∈ m.calls,
      (∀ q ∈ c.function.parameters,
        ∃ v, m.symbols.get? q.name = some v ∧ v.type = q.type ∧ v.origin = .parameter) ∧
      ∀ q more f, c.function.parameters = q :: more → m.Invokes f c.function →
        m.next = .error (.at f.cell.token.line (.redeclared q.name)) := by
  have balanced := Program.balanced_of_load loaded
  have start := nested_start balanced structured settings
  have grounded := grounded_after loaded settings (k := 0) rfl
  obtain ⟨n, nests⟩ := p.exists_nestsBelow
  have sane := sane_after loaded settings nests reached
  obtain ⟨reserved, stack, nested⟩ := (reserved_of_calls start.stands.mirrors.calls).after start
    grounded balanced structured jumpless reached
  refine ⟨reserved.once, ?_⟩
  intro c active
  have bound := reserved.bound c active
  constructor
  · intro q member
    exact bound.get? member
  · intro q more f first invokes
    apply invokes.redeclares (nested.running active) sane.work.sound.distinct
      (reserved.known c active) first
    exact bound.contains (by rw [first]; simp)

def mutualScript : String :=
  "def null f(int n) \x7b\nh()\n\x7d\ndef null h() \x7b\ng = f\ng(1)\n\x7d\nf(2)"

theorem active_once_mutualScript :
    Program.load mutualScript = .ok (programOf mutualScript) ∧
      (programOf mutualScript).BlockStructured ∧ (programOf mutualScript).GotoFree ∧
      ∃ c ∈ (stateOf mutualScript 9).calls, c.function.name = "f" ∧
        (∃ v, (stateOf mutualScript 9).symbols.get? "n" = some v ∧ v.type = .int ∧
          v.origin = .parameter) ∧
        ∃ f, (stateOf mutualScript 9).Invokes f c.function ∧
          (stateOf mutualScript 9).next = .error (.at 6 (.redeclared "n")) := by
  have checked : (Program.load mutualScript).toOption.isSome = true ∧
      (programOf mutualScript).BlockStructured ∧ (programOf mutualScript).GotoFree ∧
      ((Machine.start (programOf mutualScript) {}).machine.after 9).toOption.isSome = true ∧
      (stateOf mutualScript 9).calls[1]?.map (fun c => (c.function.name, c.function.parameters)) =
        some ("f", [⟨"n", .int⟩]) ∧
      (stateOf mutualScript 9).acting?.map (fun f =>
        (f.cell.token.kind, f.cell.token.expanded, f.cell.token.line)) =
        some (.bracket .call .opening, true, 6) ∧
      (stateOf mutualScript 9).acting?.bind Action.calleeBefore? = some (0, "g") ∧
      ((stateOf mutualScript 9).acting?.bind fun f => Line.splitClose? .call 0 f.after).map
        (fun parts =>
          (Action.readArguments (stateOf mutualScript 9) parts.2.1 [] true parts.1).toOption) =
        some (some [.int 1]) ∧
      (stateOf mutualScript 9).symbols.get? "g" =
        some ⟨.function "f", .function, .declaration⟩ := by
    decide +kernel
  obtain ⟨isSome, structured, jumpless, steps, call, acting, before, arguments, bound⟩ := checked
  have loaded : Program.load mutualScript = .ok (programOf mutualScript) :=
    Except.eq_ok_getD isSome _
  have reached : (Machine.start (programOf mutualScript) {}).machine.after 9 =
      .ok (stateOf mutualScript 9) := Except.eq_ok_getD steps _
  obtain ⟨c, second, same⟩ := Option.map_eq_some_iff.1 call
  obtain ⟨name, parameters⟩ := Prod.mk.inj same
  have active := List.mem_of_getElem? second
  obtain ⟨f, acts, token⟩ := Option.map_eq_some_iff.1 acting
  obtain ⟨kind, expanded, line⟩ : f.cell.token.kind = .bracket .call .opening ∧
      f.cell.token.expanded = true ∧ f.cell.token.line = 6 := by simpa using token
  rw [acts] at before arguments
  obtain ⟨⟨inner, close, rest⟩, split, read⟩ := Option.map_eq_some_iff.1 arguments
  have invokes : (stateOf mutualScript 9).Invokes f c.function := by
    refine ⟨acts, kind, expanded, inner, close, rest, 0, "g", [.int 1], split, before, ?_,
      Except.toOption_eq_some_iff.1 read, ?_⟩
    · exact .reference _ bound (by rw [name])
    · rw [parameters]
      rfl
  obtain ⟨parameter, refused⟩ := (active_once loaded structured jumpless {} reached).2 c active
  refine ⟨loaded, structured, jumpless, c, active, name, ?_, f, invokes, ?_⟩
  · exact parameter ⟨"n", .int⟩ (by rw [parameters]; simp)
  · rw [← line]
    exact refused ⟨"n", .int⟩ [] f parameters invokes

end Machine

end LineScript
