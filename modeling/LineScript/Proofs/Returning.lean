import LineScript.Proofs.Effects.Steps

/-!
# Scopes of a call

What a step can do to the variables and the active calls, of any machine: it reduces a line, opens
one scope, closes some, makes a call or returns from one (`Machine.turn_of_next`).  A `}` closes the
innermost scope without a look at who opened it, and a return closes only the scopes above those
that the call has recorded.  So a return restores the scopes and variables of the caller if the
scope of the parameters has been open all the time (`Machine.return_restores`).  A `goto` into a
block that was never entered comes to a `}` too many, and then the return does not
(`Machine.return_loses_strayScript`).
-/

namespace LineScript

/-!
## What a step can do
-/

theorem Symbols.Declares.receives {s s' : Symbols} {params : List (Parameter × Value)}
    (declares : s.Declares params s') : ∀ q ∈ params.map Prod.fst,
      s.contains q.name = false ∧ s'.signature.lookup q.name = some (q.type, .parameter) := by
  induction declares with
  | nil s => exact nofun
  | cons added others ih =>
      intro q member
      rcases List.mem_cons.1 member with rfl | member
      · exact ⟨(signature_add added).1, others.grows.names.lookup_eq_some (lookup_add added)⟩
      · obtain ⟨later, bound⟩ := ih q member
        exact ⟨(grows_add added).free later, bound⟩

theorem Action.parameters_of_checkArguments {function : Function} {args : List Value}
    (checked : checkArguments function args = .ok ()) :
    (function.parameters.zip args).map Prod.fst = function.parameters := by
  unfold checkArguments at checked
  split at checked
  · cases checked
  · rename_i count
    exact List.map_fst_zip (by omega)

namespace Machine

structure Quiet (m m' : Machine) : Prop where
  symbols : m'.symbols = m.symbols
  calls : m'.calls = m.calls

structure Closes (m m' : Machine) : Prop where
  symbols : ∃ k, m'.symbols = Symbols.popMany k m.symbols
  calls : m'.calls = m.calls

/-- The function of a call is known by its name, and its parameters, whose names were free, are
variables. -/
structure Receives (m : Machine) (c : Call) (m' : Machine) : Prop where
  known : m.functions.get? c.function.name = some c.function
  free : ∀ q ∈ c.function.parameters, m.symbols.contains q.name = false
  bound : ∀ q ∈ c.function.parameters,
    m'.symbols.signature.lookup q.name = some (q.type, .parameter)

inductive Turn (m m' : Machine) : Prop where
  | grows (symbols : m.symbols.Grows m'.symbols) (calls : m'.calls = m.calls)
  | opens (symbols : m'.symbols = m.symbols.push) (calls : m'.calls = m.calls)
  | closes (closes : m.Closes m')
  | enters (c : Call) (calls : m'.calls = c :: m.calls) (scopes : c.scopes = m.symbols.depth)
      (symbols : m.symbols.push.Grows m'.symbols) (parameters : m.Receives c m')
  /-- A `}` that ends a function has closed a scope before the return closes the others. -/
  | returns (c : Call) (calls : m.calls = c :: m'.calls)
      (symbols : m'.symbols = m.symbols.unwind c.scopes ∨
        m'.symbols = m.symbols.pop.unwind c.scopes)

variable {m m₁ m' : Machine}

theorem Quiet.turn (quiet : m.Quiet m') : m.Turn m' :=
  .grows (by rw [quiet.symbols]; exact .refl _) quiet.calls

theorem Quiet.closes (quiet : m.Quiet m') : m.Closes m' :=
  ⟨⟨0, quiet.symbols⟩, quiet.calls⟩

theorem Closes.trans (first : m.Closes m₁) (second : m₁.Closes m') : m.Closes m' := by
  obtain ⟨j, symbols⟩ := first.symbols
  obtain ⟨k, symbols'⟩ := second.symbols
  refine ⟨⟨j + k, ?_⟩, second.calls.trans first.calls⟩
  rw [symbols', symbols, Symbols.popMany_add]

theorem Closes.turn_of_push (closes : m₁.Closes m') (symbols : m₁.symbols = m.symbols.push)
    (calls : m₁.calls = m.calls) : m.Turn m' := by
  obtain ⟨k, symbols'⟩ := closes.symbols
  rw [symbols] at symbols'
  cases k with
  | zero => exact .opens symbols' (closes.calls.trans calls)
  | succ k =>
      refine .closes ⟨⟨k, ?_⟩, closes.calls.trans calls⟩
      rw [symbols', Symbols.popMany, Symbols.pop_push]

theorem Fetches.quiet (fetches : m.Fetches m') : m.Quiet m' := by
  cases fetches <;> exact ⟨rfl, rfl⟩

theorem Unwinds.closes (unwinds : m.Unwinds m') : m.Closes m' := by
  cases unwinds
  exact ⟨⟨_, rfl⟩, rfl⟩

theorem Jumps.closes (jumps : m.Jumps m') : m.Closes m' := by
  obtain ⟨unwinds, fetches⟩ := jumps
  exact unwinds.closes.trans fetches.quiet.closes

theorem Settles.closes (settles : m.Settles m') : m.Closes m' := by
  rcases settles with ⟨-, rfl⟩ | jumps
  · exact Quiet.closes ⟨rfl, rfl⟩
  · exact jumps.closes

theorem Edits.turn {f : Focus} (edits : m.Edits f m') : m.Turn m' := by
  cases edits with
  | answer _ _ _ _ takes => exact .grows takes.grows rfl
  | declare _ added => exact .grows (Symbols.grows_add added) rfl
  | openBlock _ => exact .opens rfl rfl
  | closeBlock _ => exact .closes ⟨⟨1, rfl⟩, rfl⟩
  | _ => exact Quiet.turn ⟨rfl, rfl⟩

theorem HandsBack.leaves {value : Value} (back : m.HandsBack value m') :
    ∃ c, m.calls = c :: m'.calls ∧ m'.symbols = m.symbols.unwind c.scopes := by
  obtain ⟨own, -⟩ := back
  exact ⟨_, own, rfl⟩

theorem Transfers.turn {f : Focus} (transfers : m.Transfers f m') : m.Turn m' := by
  cases transfers with
  | jump jumps => exact .closes jumps.closes
  | loop _ _ jumps => exact jumps.closes.turn_of_push rfl rfl
  | iterate jumps =>
      have closed : m.Closes (({ m with symbols := m.symbols.pop } : Machine).withCells
          (f.before.reverse ++ f.after)) := ⟨⟨1, rfl⟩, rfl⟩
      exact .closes (closed.trans jumps.closes)
  | define _ _ _ fetches => exact Quiet.turn ⟨fetches.quiet.symbols, fetches.quiet.calls⟩
  | call _ _ _ _ _ found checked declares fetches =>
      have received := declares.receives
      rw [Action.parameters_of_checkArguments checked] at received
      refine .enters _ fetches.quiet.calls rfl ?_ ⟨get?_of_callee found, ?_, ?_⟩
      · rw [fetches.quiet.symbols]
        exact declares.grows
      · exact fun q member => (received q member).1
      · rw [fetches.quiet.symbols]
        exact fun q member => (received q member).2
  | giveBack _ back =>
      obtain ⟨c, calls, symbols⟩ := back.leaves
      exact .returns c calls (.inl symbols)
  | finish back =>
      obtain ⟨c, calls, symbols⟩ := back.leaves
      exact .returns c calls (.inr symbols)

theorem Turn.of_work {work : Work} (turn : ({ m with work } : Machine).Turn m') : m.Turn m' := by
  cases turn with
  | grows symbols calls => exact .grows symbols calls
  | opens symbols calls => exact .opens symbols calls
  | closes closes => exact .closes ⟨closes.symbols, closes.calls⟩
  | enters c calls scopes symbols parameters =>
      exact .enters c calls scopes symbols ⟨parameters.known, parameters.free, parameters.bound⟩
  | returns c calls symbols => exact .returns c calls symbols

theorem turn_of_next (step : m.next = .ok m') : m.Turn m' := by
  cases does_of_next step with
  | rest _ => exact Quiet.turn ⟨rfl, rfl⟩
  | conclude _ _ settles => exact Turn.of_work (.closes settles.closes)
  | edit _ _ _ edits => exact edits.turn.of_work
  | transfer _ _ transfers => exact transfers.turn.of_work

/-!
## Activations
-/

/-- The call `c` that `s` has made is active, and its scope is open. -/
structure Active (s : Machine) (c : Call) (m : Machine) : Prop where
  calls : ∃ inner, m.calls = inner ++ c :: s.calls
  symbols : s.symbols.Under m.symbols

variable {s : Machine} {c : Call}

/-- The call stays active until no more calls are than before it. -/
theorem Active.step (active : s.Active c m) (step : m.next = .ok m')
    (inside : m'.calls.length ≠ s.calls.length) (above : s.symbols.depth < m'.symbols.depth) :
    s.Active c m' := by
  obtain ⟨inner, calls⟩ := active.calls
  have under := active.symbols
  cases turn_of_next step with
  | grows symbols same => exact ⟨⟨inner, same.trans calls⟩, under.grows symbols⟩
  | opens symbols same =>
      refine ⟨⟨inner, same.trans calls⟩, ?_⟩
      rw [symbols]
      exact under.push
  | closes closes =>
      obtain ⟨k, symbols⟩ := closes.symbols
      refine ⟨⟨inner, closes.calls.trans calls⟩, ?_⟩
      rw [symbols, Symbols.depth_popMany] at above
      have same : Symbols.popMany k m.symbols = m.symbols.unwind (m.symbols.depth - k) := by
        rw [Symbols.unwind, Nat.sub_sub_self (by omega)]
      rw [symbols, same]
      exact under.unwind above
  | enters d made _ symbols _ =>
      refine ⟨⟨d :: inner, ?_⟩, under.push.grows symbols⟩
      rw [made, calls, List.cons_append]
  | returns d left symbols =>
      rw [calls] at left
      cases inner with
      | nil =>
          have same : s.calls = m'.calls := (List.cons.inj left).2
          exact absurd (by rw [same]) inside
      | cons d' inner =>
          refine ⟨⟨inner, (List.cons.inj left).2.symm⟩, ?_⟩
          rcases symbols with symbols | symbols
          · rw [symbols, Symbols.depth_unwind] at above
            rw [symbols]
            exact under.unwind (by omega)
          · rw [symbols, Symbols.depth_unwind, Symbols.depth_pop] at above
            rw [symbols]
            exact (under.pop (by omega)).unwind (by omega)

/-- The step after which no more calls are active than before closes exactly what the
call opened. -/
theorem Active.return (active : s.Active c m) (scopes : c.scopes = s.symbols.depth)
    (step : m.next = .ok m') (back : m'.calls.length = s.calls.length) :
    m'.symbols.marks = s.symbols.marks ∧ m'.symbols.signature = s.symbols.signature := by
  obtain ⟨inner, calls⟩ := active.calls
  have count := congrArg List.length calls
  rw [List.length_append, List.length_cons] at count
  cases turn_of_next step with
  | grows _ same =>
      rw [same] at back
      omega
  | opens _ same =>
      rw [same] at back
      omega
  | closes closes =>
      rw [closes.calls] at back
      omega
  | enters d made _ _ _ =>
      rw [made, List.length_cons] at back
      omega
  | returns d left symbols =>
      rw [left, List.length_cons] at count
      have none : inner = [] := List.length_eq_zero_iff.1 (by omega)
      rw [none, left] at calls
      obtain rfl : d = c := (List.cons.inj calls).1
      have open_ := active.symbols.depth_lt
      have whole : m'.symbols = m.symbols.unwind s.symbols.depth := by
        rcases symbols with symbols | symbols
        · rw [symbols, scopes]
        · rw [symbols, scopes, ← Symbols.unwind_of_lt open_]
      rw [whole]
      exact active.symbols.unwind_depth

theorem active_of_call (step : s.next = .ok m) (called : m.calls = c :: s.calls) :
    s.Active c m ∧ c.scopes = s.symbols.depth := by
  have count := congrArg List.length called
  rw [List.length_cons] at count
  cases turn_of_next step with
  | grows _ same =>
      rw [same] at count
      omega
  | opens _ same =>
      rw [same] at count
      omega
  | closes closes =>
      rw [closes.calls] at count
      omega
  | enters d made scopes symbols _ =>
      rw [called] at made
      obtain rfl : c = d := (List.cons.inj made).1
      exact ⟨⟨⟨[], called⟩, (Symbols.under_push _).grows symbols⟩, scopes⟩
  | returns d left _ =>
      rw [left, List.length_cons] at count
      omega

theorem Active.back {n : Nat} (active : s.Active c m) (scopes : c.scopes = s.symbols.depth)
    (later : m.after n = .ok m')
    (first : ∀ j < n, ∀ m₁, m.after j = .ok m₁ →
      m₁.calls.length ≠ s.calls.length ∧ c.scopes < m₁.symbols.depth)
    (back : m'.calls.length = s.calls.length) :
    m'.symbols.marks = s.symbols.marks ∧ m'.symbols.signature = s.symbols.signature := by
  induction n generalizing m with
  | zero =>
      cases later
      obtain ⟨inner, calls⟩ := active.calls
      rw [calls, List.length_append, List.length_cons] at back
      omega
  | succ n ih =>
      rw [after_succ] at later
      cases step : m.next with
      | error stop => simp [step] at later
      | ok m₁ =>
          rw [step, Except.bind_ok] at later
          have shift (j : Nat) : m.after (j + 1) = m₁.after j := by
            rw [after_succ, step, Except.bind_ok]
          cases n with
          | zero =>
              cases later
              exact active.return scopes step back
          | succ n =>
              obtain ⟨inside, above⟩ := first 1 (by omega) m₁ (shift 0)
              refine ih (active.step step inside (scopes ▸ above)) later ?_
              intro j lt m₂ reached
              exact first (j + 1) (by omega) m₂ ((shift j).trans reached)

/-- If the scope of a call is open until the call returns, the return restores the number of scopes
that the call has recorded, and all variables of the caller are there with their types. -/
theorem return_restores {s s₁ s' : Machine} {c : Call} {n : Nat} (step : s.next = .ok s₁)
    (called : s₁.calls = c :: s.calls) (later : s₁.after n = .ok s')
    (first : ∀ j < n, ∀ m, s₁.after j = .ok m →
      m.calls.length ≠ s.calls.length ∧ c.scopes < m.symbols.depth)
    (back : s'.calls.length = s.calls.length) :
    s'.symbols.depth = c.scopes ∧
      ∀ x v, s.symbols.get? x = some v → ∃ v', s'.symbols.get? x = some v' ∧ v'.type = v.type := by
  obtain ⟨active, scopes⟩ := active_of_call step called
  obtain ⟨marks, signature⟩ := active.back scopes later first back
  constructor
  · rw [Symbols.depth, marks, scopes]
    rfl
  · intro x v bound
    have same := s'.symbols.lookup_signature x
    rw [signature, s.symbols.lookup_signature, bound] at same
    obtain ⟨v', bound', types⟩ := Option.map_eq_some_iff.1 same.symm
    exact ⟨v', bound', (Prod.mk.inj types).1⟩

def outScript : String :=
  "def null f() \x7b\n\x7b\ngoto out\n\x7d\n@out\n\x7d\n\x7b\nint y = 2\nf()\n\x7d"

theorem next_stateOf {source : String} {n k : Nat}
    (all : ∀ k < n, ((Machine.start (programOf source) {}).machine.after k).toOption.isSome = true)
    (lt : k + 1 < n) : (stateOf source k).next = .ok (stateOf source (k + 1)) := by
  have here : (Machine.start (programOf source) {}).machine.after k = .ok (stateOf source k) :=
    Except.eq_ok_getD (all k (by omega)) _
  rw [← after_one, ← after_trans here]
  exact Except.eq_ok_getD (all (k + 1) lt) _

theorem after_stateOf {source : String} {n k j : Nat}
    (all : ∀ k < n, ((Machine.start (programOf source) {}).machine.after k).toOption.isSome = true)
    (lt : k + j < n) : (stateOf source k).after j = .ok (stateOf source (k + j)) := by
  have here : (Machine.start (programOf source) {}).machine.after k = .ok (stateOf source k) :=
    Except.eq_ok_getD (all k (by omega)) _
  rw [← after_trans here]
  exact Except.eq_ok_getD (all (k + j) lt) _

theorem return_restores_outScript :
    ∃ c, (stateOf outScript 7).calls = c :: (stateOf outScript 6).calls ∧ c.scopes = 1 ∧
      (stateOf outScript 11).symbols.depth = c.scopes ∧
      ∃ v, (stateOf outScript 11).symbols.get? "y" = some v ∧ v.type = .int := by
  have checked :
      (∀ k < 12,
        ((Machine.start (programOf outScript) {}).machine.after k).toOption.isSome = true) ∧
      (∀ j < 4, (stateOf outScript (7 + j)).calls.length ≠ (stateOf outScript 6).calls.length ∧
        1 < (stateOf outScript (7 + j)).symbols.depth) ∧
      (stateOf outScript 11).calls.length = (stateOf outScript 6).calls.length ∧
      (stateOf outScript 7).calls.tail = (stateOf outScript 6).calls ∧
      (stateOf outScript 7).calls.head?.map Call.scopes = some 1 ∧
      (stateOf outScript 6).symbols.get? "y" = some ⟨.int 2, .int, .declaration⟩ := by
    decide +kernel
  obtain ⟨all, inside, back, tail, head, bound⟩ := checked
  obtain ⟨c, innermost, scopes⟩ := Option.map_eq_some_iff.1 head
  have called : (stateOf outScript 7).calls = c :: (stateOf outScript 6).calls := by
    obtain ⟨rest, whole⟩ := List.head?_eq_some_iff.1 innermost
    rw [← tail, whole, List.tail_cons]
  have restored := return_restores (next_stateOf all (by decide)) called
    (after_stateOf (j := 4) all (by decide)) ?_ back
  · exact ⟨c, called, scopes, restored.1, restored.2 "y" _ bound⟩
  · intro j lt m reached
    rw [after_stateOf all (by omega)] at reached
    cases reached
    rw [scopes]
    exact inside j lt

def strayScript : String :=
  "def null f() \x7b\ngoto inner\n\x7b\n\x7b\n@inner\n\x7d\n\x7d\nreturn\n\x7d\n\x7b\nint y = 2\nf()
system println y\n\x7d"

/-- The two `}` close the scope of the parameters and that of the caller, and the return does not
open them again: a variable of the caller is lost. -/
theorem return_loses_strayScript :
    Program.load strayScript = .ok (programOf strayScript) ∧
      (∀ kinds ∈ (programOf strayScript).kinds, TokenKind.keyword .goback ∉ kinds) ∧
      ∃ c v, (stateOf strayScript 6).next = .ok (stateOf strayScript 7) ∧
        (stateOf strayScript 7).calls = c :: (stateOf strayScript 6).calls ∧
        (stateOf strayScript 7).after 5 = .ok (stateOf strayScript 12) ∧
        (stateOf strayScript 12).next = .ok (stateOf strayScript 13) ∧
        (stateOf strayScript 12).calls = c :: (stateOf strayScript 13).calls ∧
        (stateOf strayScript 13).symbols.depth ≠ c.scopes ∧
        (stateOf strayScript 6).symbols.get? "y" = some v ∧
        (stateOf strayScript 13).symbols.get? "y" = none := by
  have checked : (Program.load strayScript).toOption.isSome = true ∧
      (∀ kinds ∈ (programOf strayScript).kinds, TokenKind.keyword .goback ∉ kinds) ∧
      (∀ k < 14,
        ((Machine.start (programOf strayScript) {}).machine.after k).toOption.isSome = true) ∧
      (stateOf strayScript 7).calls.tail = (stateOf strayScript 6).calls ∧
      (stateOf strayScript 12).calls = (stateOf strayScript 7).calls ∧
      (stateOf strayScript 13).calls = (stateOf strayScript 6).calls ∧
      (stateOf strayScript 7).calls.head?.map Call.scopes = some 1 ∧
      (stateOf strayScript 13).symbols.depth = 0 ∧
      (stateOf strayScript 6).symbols.get? "y" = some ⟨.int 2, .int, .declaration⟩ ∧
      (stateOf strayScript 13).symbols.get? "y" = none := by
    decide +kernel
  obtain ⟨isSome, goback, all, tail, same, back, head, depth, bound, lost⟩ := checked
  obtain ⟨c, innermost, scopes⟩ := Option.map_eq_some_iff.1 head
  have called : (stateOf strayScript 7).calls = c :: (stateOf strayScript 6).calls := by
    obtain ⟨rest, whole⟩ := List.head?_eq_some_iff.1 innermost
    rw [← tail, whole, List.tail_cons]
  refine ⟨Except.eq_ok_getD isSome _, goback, c, _, next_stateOf all (by decide), called,
    after_stateOf all (by decide), next_stateOf all (by decide), ?_, ?_, bound, lost⟩
  · rw [same, back, called]
  · rw [depth, scopes]
    decide

end Machine

end LineScript
