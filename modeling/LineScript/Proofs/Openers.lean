import LineScript.Proofs.Frames
import LineScript.Proofs.Returning

/-!
# Who opened a scope

A `{` in the flow of control records its position with the depth of the scope that it opens; a loop
and a call open scopes without a record.  Scopes are closed in many places that leave the records
alone, so some records are of scopes that are no longer open.  They are dropped when a scope is
opened again at their depth or below it.

The history of a run tells by which token each open scope was opened (`Machine.openers`).  The
records up to the depth of the open scopes are those of its blocks, and no others
(`Machine.records_exact`).
-/

namespace LineScript

/-- What a scope is opened for. -/
inductive Opener where
  | block (brace : Position)
  | loop
  | call
  deriving DecidableEq, Repr

namespace Machine

def openerOf (m : Machine) (f : Focus) : Option Opener :=
  match f.cell.token.kind with
  | .bracket .scope .opening => some (.block (m.positionOf f.cell))
  | .bracket .call .opening => some .call
  | .keyword .while => some .loop
  | .keyword .for => some .loop
  | _ => none

def opener? (m : Machine) : Option Opener :=
  m.acting?.bind m.openerOf

def openersAfter (m m' : Machine) (openers : List Opener) : List Opener :=
  if m.symbols.depth < m'.symbols.depth then openers ++ m.opener?.toList
  else openers.take m'.symbols.depth

def openers : Nat → Machine → List Opener → List Opener
  | 0, _, opened => opened
  | n + 1, m, opened =>
      match m.next with
      | .ok m' => openers n m' (m.openersAfter m' opened)
      | .error _ => opened

variable {m m' : Machine} {opened : List Opener} {new : List Extent}

theorem openerOf_frame (m : Machine) {f : Focus} (kind : f.cell.token.kind.opensFrame = true) :
    ∃ o, m.openerOf f = some o ∧ ∀ brace, o ≠ .block brace := by
  unfold TokenKind.opensFrame at kind
  split at kind
  · rename_i word
    exact ⟨.loop, by rw [openerOf, word], nofun⟩
  · rename_i word
    exact ⟨.loop, by rw [openerOf, word], nofun⟩
  · rename_i opening
    exact ⟨.call, by rw [openerOf, opening], nofun⟩
  · cases kind

theorem marks_of_next (step : m.next = .ok m') :
    (∃ mark, m'.symbols.marks = mark :: m.symbols.marks) ∨
      ∃ n, m'.symbols.marks = m.symbols.marks.drop n := by
  have popped (n : Nat) (s : Symbols) : (Symbols.popMany n s).marks = s.marks.drop n := by
    induction n generalizing s with
    | zero => rfl
    | succ n ih =>
        rw [Symbols.popMany, ih]
        obtain ⟨bindings, marks⟩ := s
        cases marks with
        | nil => simp [Symbols.pop]
        | cons mark marks => rfl
  cases turn_of_next step with
  | grows symbols _ => exact .inr ⟨0, symbols.marks⟩
  | opens symbols _ => exact .inl ⟨_, by rw [symbols, Symbols.push]⟩
  | closes closes =>
      obtain ⟨n, symbols⟩ := closes.symbols
      exact .inr ⟨n, by rw [symbols, popped]⟩
  | enters c _ _ symbols _ => exact .inl ⟨_, symbols.marks⟩
  | returns c _ symbols =>
      rcases symbols with symbols | symbols
      · exact .inr ⟨_, by rw [symbols, Symbols.unwind, popped]⟩
      · have whole := popped 1 m.symbols
        rw [Symbols.popMany, Symbols.popMany] at whole
        exact .inr ⟨_, by rw [symbols, Symbols.unwind, popped, whole, List.drop_drop]⟩

/-!
## Whole runs
-/

/-- The records tell of the open scopes which of them are blocks. -/
structure Accounts (m : Machine) (opened : List Opener) : Prop where
  increasing : m.blocks.Pairwise fun a b => a.depth < b.depth
  positive : ∀ b ∈ m.blocks, 1 ≤ b.depth
  length : opened.length = m.symbols.depth
  exact : ∀ d brace, d < m.symbols.depth →
    (opened[d]? = some (.block brace) ↔ { depth := d + 1, brace } ∈ m.blocks)

theorem Accounts.sheds (accounts : m.Accounts opened) (sheds : m.Sheds new m') :
    m'.Accounts (opened.take m'.symbols.depth) where
  increasing := accounts.increasing.sublist sheds.sublist
  positive := fun b member => accounts.positive b (sheds.sublist.subset member)
  length := by
    rw [List.length_take, accounts.length]
    exact Nat.min_eq_left sheds.depth
  exact := by
    intro d brace lt
    rw [List.getElem?_take_of_lt lt, accounts.exact d brace (Nat.lt_of_lt_of_le lt sheds.depth)]
    exact ⟨fun member => sheds.live _ member lt, fun member => sheds.sublist.subset member⟩

theorem Accounts.opens (accounts : m.Accounts opened) (opens : m.Opens new m') {o : Opener}
    (bare : ∀ brace, o ≠ .block brace) : m'.Accounts (opened ++ [o]) where
  increasing := accounts.increasing.sublist opens.sublist
  positive := fun b member => accounts.positive b (opens.sublist.subset member)
  length := by rw [List.length_append, accounts.length, opens.depth, List.length_singleton]
  exact := by
    intro d brace lt
    rw [opens.depth] at lt
    rcases Nat.lt_or_eq_of_le (Nat.le_of_lt_succ lt) with below | rfl
    · rw [List.getElem?_append_left (by rw [accounts.length]; exact below),
        accounts.exact d brace below]
      exact ⟨fun member => opens.live _ member below, fun member => opens.sublist.subset member⟩
    · have last : (opened ++ [o])[m.symbols.depth]? = some o := by simp [← accounts.length]
      rw [last]
      constructor
      · intro same
        exact absurd (Option.some.inj same) (bare brace)
      · intro member
        exact absurd (opens.dropped _ member) (Nat.not_succ_le_self _)

theorem Accounts.block (accounts : m.Accounts opened) {here : Position}
    (depth : m'.symbols.depth = m.symbols.depth + 1)
    (blocks : m'.blocks = m.keptBlocks ++ [{ depth := m.symbols.depth + 1, brace := here }]) :
    m'.Accounts (opened ++ [.block here]) where
  increasing := by
    rw [blocks, List.pairwise_append]
    refine ⟨accounts.increasing.sublist List.filter_sublist, List.pairwise_singleton _ _, ?_⟩
    intro a ha b hb
    rw [List.mem_singleton.1 hb]
    exact of_decide_eq_true (List.mem_filter.1 ha).2
  positive := by
    intro b member
    rw [blocks] at member
    rcases List.mem_append.1 member with kept | new
    · exact accounts.positive b (List.mem_filter.1 kept).1
    · rw [List.mem_singleton.1 new]
      exact Nat.succ_pos _
  length := by rw [List.length_append, accounts.length, depth, List.length_singleton]
  exact := by
    intro d brace lt
    rw [depth] at lt
    rw [blocks, List.mem_append, List.mem_singleton, keptBlocks, List.mem_filter]
    rcases Nat.lt_or_eq_of_le (Nat.le_of_lt_succ lt) with below | rfl
    · rw [List.getElem?_append_left (by rw [accounts.length]; exact below),
        accounts.exact d brace below]
      simp [below, Nat.ne_of_lt below]
    · have last : (opened ++ [.block here])[m.symbols.depth]? = some (.block here) := by
        simp [← accounts.length]
      rw [last]
      simp [eq_comm]

theorem Accounts.next (accounts : m.Accounts opened) (step : m.next = .ok m') :
    m'.Accounts (m.openersAfter m' opened) := by
  unfold openersAfter
  cases records_of_next step with
  | block f acts kind depth blocks _ =>
      have opener : m.opener? = some (.block (m.positionOf f.cell)) := by
        simp [opener?, acts, openerOf, kind, TokenKind.openBrace]
      rw [if_pos (by omega), opener]
      exact accounts.block depth blocks
  | opens f acts kind _ _ opens =>
      obtain ⟨o, opener, bare⟩ := openerOf_frame m kind
      have deeper : m.symbols.depth < m'.symbols.depth := by
        rw [opens.depth]
        exact Nat.lt_succ_self _
      rw [if_pos deeper, opener?, acts, Option.bind_some, opener]
      exact accounts.opens opens bare
  | sheds _ _ sheds =>
      rw [if_neg (Nat.not_lt.2 sheds.depth)]
      exact accounts.sheds sheds

theorem Accounts.after (accounts : m.Accounts opened) {k : Nat} (reached : m.after k = .ok m') :
    m'.Accounts (m.openers k opened) := by
  induction k generalizing m opened with
  | zero =>
      cases reached
      exact accounts
  | succ k ih =>
      rw [after_succ] at reached
      cases step : m.next with
      | error stop => simp [step] at reached
      | ok m₁ =>
          rw [step] at reached
          simp only [openers, step]
          exact ih (accounts.next step) reached

theorem accounts_start (p : Program) (settings : Settings) :
    (Machine.start p settings).machine.Accounts [] := by
  have leads : (Action.goToLine 0).Leads (Machine.initial p settings) fun m => m.Accounts [] := by
    refine (Action.goToLine_fetches 0).mono fun m fetches => ?_
    have sheds := fetches.sheds
    have none : m.blocks = [] := List.sublist_nil.1 sheds.sublist
    have closed : m.symbols.depth = 0 := Nat.le_zero.1 sheds.depth
    refine ⟨none ▸ .nil, none ▸ List.forall_mem_nil _, closed.symm, ?_⟩
    intro d brace lt
    rw [closed] at lt
    exact absurd lt (Nat.not_lt_zero d)
  exact start_of_leads leads

/-- In every state of a run the records up to the depth of the open scopes are those of the blocks
among them.  Scopes of loops and calls have none, and other records are of scopes that are closed.
The openers are those of the scopes: a step opens one scope above the others, or closes some of the
innermost. -/
theorem records_exact (p : Program) (settings : Settings) {k : Nat} {m : Machine}
    (reached : (Machine.start p settings).machine.after k = .ok m) :
    m.Accounts ((Machine.start p settings).machine.openers k []) ∧
      (∀ d o, ((Machine.start p settings).machine.openers k [])[d]? = some o →
        o = .loop ∨ o = .call →
        ∀ b ∈ m.blocks, b.depth ≠ d + 1) ∧
      (∀ b ∈ m.blocks, ((Machine.start p settings).machine.openers k [])[b.depth - 1]? ≠
        some (.block b.brace) → m.symbols.depth < b.depth) ∧
      ∀ m', m.next = .ok m' → (∃ mark, m'.symbols.marks = mark :: m.symbols.marks) ∨
        ∃ n, m'.symbols.marks = m.symbols.marks.drop n := by
  have accounts := (accounts_start p settings).after reached
  refine ⟨accounts, ?_, ?_, fun m' step => marks_of_next step⟩
  · intro d o at_d bare b member same
    have lt : d < m.symbols.depth := by
      rw [← accounts.length]
      exact (List.getElem?_eq_some_iff.1 at_d).1
    obtain ⟨depth, brace⟩ := b
    obtain rfl : depth = d + 1 := same
    have block := (accounts.exact d brace lt).2 member
    rw [at_d] at block
    rcases bare with rfl | rfl <;> cases block
  · intro b member stale
    rcases Nat.lt_or_ge m.symbols.depth b.depth with above | le
    · exact above
    · have positive := accounts.positive b member
      have live := accounts.exact (b.depth - 1) b.brace (by omega)
      rw [Nat.sub_add_cancel positive] at live
      exact absurd (live.2 member) stale

def leavingScript : String :=
  "def null f() \x7b\n\x7b\nreturn\n\x7d\n\x7d
\x7b\nwhile true \x7b\nf()\ngoto out\n\x7d\n\x7d\n@out"

/-- When the call has returned, the record of its block is stale. -/
theorem records_exact_leavingScript :
    Program.load leavingScript = .ok (programOf leavingScript) ∧
      (stateOf leavingScript 12).symbols.depth = 3 ∧
      (stateOf leavingScript 12).blocks.map Block.depth = [1, 3, 5] ∧
      (Machine.start (programOf leavingScript) {}).machine.openers 12 [] =
        [.block ⟨5, 0⟩, .loop, .block ⟨6, 2⟩] ∧
      (stateOf leavingScript 12).Accounts
        ((Machine.start (programOf leavingScript) {}).machine.openers 12 []) := by
  have checked : (Program.load leavingScript).toOption.isSome = true ∧
      ((Machine.start (programOf leavingScript) {}).machine.after 12).toOption.isSome = true ∧
      (stateOf leavingScript 12).symbols.depth = 3 ∧
      (stateOf leavingScript 12).blocks.map Block.depth = [1, 3, 5] ∧
      (Machine.start (programOf leavingScript) {}).machine.openers 12 [] =
        [.block ⟨5, 0⟩, .loop, .block ⟨6, 2⟩] := by
    decide +kernel
  obtain ⟨isSome, runs, facts⟩ := checked
  have reached : (Machine.start (programOf leavingScript) {}).machine.after 12 =
      .ok (stateOf leavingScript 12) := Except.eq_ok_getD runs _
  exact ⟨Except.eq_ok_getD isSome _, facts.1, facts.2.1, facts.2.2,
    (records_exact (programOf leavingScript) {} reached).1⟩

end Machine

end LineScript
