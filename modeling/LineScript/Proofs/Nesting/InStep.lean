import LineScript.Proofs.Nesting.Step

/-!
# Stacks in step

All states of a run are nested (`Machine.Nested.after`), so the scopes of the variables are counted
consistently by all stacks of a machine (`Machine.inStep_after`): every open scope is that of one
call, loop or block, which holds its number.
-/

namespace LineScript

open Scope

/-- The counts that loops and calls hold are those of the scopes below them. -/
def Scope.Counted : List Scope → Prop
  | [] => True
  | .block _ :: rest => Counted rest
  | .loop l :: rest => l.scopes = rest.length ∧ l.calls = (calls rest).length ∧ Counted rest
  | .call c :: rest => c.scopes = rest.length ∧ c.loops = (loops rest).length ∧ Counted rest

theorem Nest.counted {p : Program} {stack : List Scope} {t : Nat} (nest : Nest p stack t) :
    Counted stack := by
  induction stack generalizing t with
  | nil => trivial
  | cons s rest ih =>
      cases s with
      | block b => exact ih nest.2.2
      | loop l => exact ⟨nest.2.2.1, nest.2.2.2.1, ih nest.2.2.2.2.2⟩
      | call c =>
          obtain ⟨t', -, below⟩ := nest.2.2.2.2
          exact ⟨nest.2.2.1, nest.2.2.2.1, ih below⟩

def scopeNumbers (calls : List Call) (loops : List Loop) (blocks : List Block) : List Nat :=
  calls.map (fun c => c.scopes + 1) ++ loops.map (fun l => l.scopes + 1) ++ blocks.map Block.depth

namespace Machine

def openBlocks (m : Machine) : List Block :=
  m.blocks.filter fun b => decide (b.depth ≤ m.symbols.depth)

/-- Scopes, loops, calls and blocks agree with each other. -/
structure InStep (m : Machine) : Prop where
  /-- Each open scope is that of one call, loop or block. -/
  scopes : (scopeNumbers m.calls m.loops m.openBlocks).Perm (List.range' 1 m.symbols.depth)
  /-- Frames are in the order of their scopes. -/
  calls : (m.calls.map Call.scopes).Pairwise (· > ·)
  loops : (m.loops.map Loop.scopes).Pairwise (· > ·)
  blocks : (m.openBlocks.map Block.depth).Pairwise (· < ·)
  /-- A call counts the loops below it, and a loop the calls. -/
  loopsBelow : ∀ c ∈ m.calls,
    c.loops = (m.loops.filter fun l => decide (l.scopes < c.scopes)).length
  callsBelow : ∀ l ∈ m.loops,
    l.calls = (m.calls.filter fun c => decide (c.scopes < l.scopes)).length

end Machine

namespace Scope

variable {stack : List Scope}

theorem Counted.call_lt (counted : Counted stack) {c : Call} (member : c ∈ calls stack) :
    c.scopes < stack.length := by
  induction stack with
  | nil => cases member
  | cons s rest ih =>
      cases s with
      | block b => exact Nat.lt_succ_of_lt (ih counted member)
      | loop l => exact Nat.lt_succ_of_lt (ih counted.2.2 member)
      | call d =>
          rcases List.mem_cons.1 member with rfl | member
          · exact Nat.lt_succ_of_le (Nat.le_of_eq counted.1)
          · exact Nat.lt_succ_of_lt (ih counted.2.2 member)

theorem Counted.loop_lt (counted : Counted stack) {l : Loop} (member : l ∈ loops stack) :
    l.scopes < stack.length := by
  induction stack with
  | nil => cases member
  | cons s rest ih =>
      cases s with
      | block b => exact Nat.lt_succ_of_lt (ih counted member)
      | call c => exact Nat.lt_succ_of_lt (ih counted.2.2 member)
      | loop d =>
          rcases List.mem_cons.1 member with rfl | member
          · exact Nat.lt_succ_of_le (Nat.le_of_eq counted.1)
          · exact Nat.lt_succ_of_lt (ih counted.2.2 member)

theorem Counted.numbers (counted : Counted stack) :
    (scopeNumbers (calls stack) (loops stack) (blocks stack)).Perm
      (List.range' 1 stack.length) := by
  induction stack with
  | nil => exact .nil
  | cons s rest ih =>
      rw [List.length_cons, List.range'_1_concat, Nat.add_comm 1]
      -- The number of the innermost scope comes in addition to those of the others.
      have onTop {numbers : List Nat} (counted : Counted rest) (more : numbers.Perm
          ((rest.length + 1) :: scopeNumbers (calls rest) (loops rest) (blocks rest))) :
          numbers.Perm (List.range' 1 rest.length ++ [rest.length + 1]) :=
        (more.trans ((ih counted).cons _)).trans (List.perm_append_singleton _ _).symm
      cases s with
      | block b =>
          refine onTop counted ?_
          simp only [scopeNumbers, calls_block, loops_block, blocks, List.map_append, List.map_cons,
            List.map_nil, ← List.append_assoc]
          exact List.perm_append_singleton _ _
      | loop l =>
          refine onTop counted.2.2 ?_
          simp only [scopeNumbers, calls_loop, loops_loop, blocks, List.map_cons, counted.1,
            List.append_assoc]
          exact List.perm_middle
      | call c =>
          refine onTop counted.2.2 ?_
          simp only [scopeNumbers, calls_call, loops_call, blocks, List.map_cons, counted.1]
          exact .refl _

theorem Counted.sorted_calls (counted : Counted stack) :
    ((calls stack).map Call.scopes).Pairwise (· > ·) := by
  induction stack with
  | nil => exact .nil
  | cons s rest ih =>
      cases s with
      | block b => exact ih counted
      | loop l => exact ih counted.2.2
      | call c =>
          rw [calls_call, List.map_cons, List.pairwise_cons]
          refine ⟨?_, ih counted.2.2⟩
          intro n hn
          obtain ⟨d, member, rfl⟩ := List.mem_map.1 hn
          rw [counted.1]
          exact counted.2.2.call_lt member

theorem Counted.sorted_loops (counted : Counted stack) :
    ((loops stack).map Loop.scopes).Pairwise (· > ·) := by
  induction stack with
  | nil => exact .nil
  | cons s rest ih =>
      cases s with
      | block b => exact ih counted
      | call c => exact ih counted.2.2
      | loop l =>
          rw [loops_loop, List.map_cons, List.pairwise_cons]
          refine ⟨?_, ih counted.2.2⟩
          intro n hn
          obtain ⟨d, member, rfl⟩ := List.mem_map.1 hn
          rw [counted.1]
          exact counted.2.2.loop_lt member

theorem sorted_blocks (stack : List Scope) : ((blocks stack).map Block.depth).Pairwise (· < ·) := by
  induction stack with
  | nil => exact .nil
  | cons s rest ih =>
      cases s with
      | block b =>
          rw [blocks, List.map_append, List.pairwise_append]
          refine ⟨ih, by simp, ?_⟩
          intro n hn k hk
          obtain ⟨d, member, rfl⟩ := List.mem_map.1 hn
          obtain rfl : k = rest.length + 1 := by simpa using hk
          exact Nat.lt_succ_of_le (depth_blocks member)
      | loop l => exact ih
      | call c => exact ih

theorem Counted.loopsBelow (counted : Counted stack) {c : Call} (member : c ∈ calls stack) :
    c.loops = ((loops stack).filter fun l => decide (l.scopes < c.scopes)).length := by
  induction stack with
  | nil => cases member
  | cons s rest ih =>
      cases s with
      | block b => exact ih counted member
      | loop l =>
          have lt := counted.2.2.call_lt member
          have inner : ¬ l.scopes < c.scopes := by
            rw [counted.1]
            omega
          rw [loops_loop, List.filter_cons_of_neg (by simpa using inner)]
          exact ih counted.2.2 member
      | call d =>
          rcases List.mem_cons.1 member with rfl | member
          · have all : (loops rest).filter
              (fun l => decide (l.scopes < c.scopes)) = loops rest := by
              rw [List.filter_eq_self]
              intro l hl
              rw [counted.1]
              exact decide_eq_true (counted.2.2.loop_lt hl)
            rw [loops_call, all]
            exact counted.2.1
          · exact ih counted.2.2 member

theorem Counted.callsBelow (counted : Counted stack) {l : Loop} (member : l ∈ loops stack) :
    l.calls = ((calls stack).filter fun c => decide (c.scopes < l.scopes)).length := by
  induction stack with
  | nil => cases member
  | cons s rest ih =>
      cases s with
      | block b => exact ih counted member
      | call c =>
          have lt := counted.2.2.loop_lt member
          have inner : ¬ c.scopes < l.scopes := by
            rw [counted.1]
            omega
          rw [calls_call, List.filter_cons_of_neg (by simpa using inner)]
          exact ih counted.2.2 member
      | loop d =>
          rcases List.mem_cons.1 member with rfl | member
          · have all : (calls rest).filter
              (fun c => decide (c.scopes < l.scopes)) = calls rest := by
              rw [List.filter_eq_self]
              intro c hc
              rw [counted.1]
              exact decide_eq_true (counted.2.2.call_lt hc)
            rw [calls_loop, all]
            exact counted.2.1
          · exact ih counted.2.2 member

end Scope

/-!
## Runs
-/

namespace Machine

variable {m m' : Machine} {p : Program} {stack : List Scope}

theorem Nested.counted (nested : m.Nested p stack) : Counted stack := by
  rcases nested.state with ⟨-, rfl⟩ | ⟨t, nest, -⟩
  · trivial
  · exact nest.counted

theorem Nested.inStep (nested : m.Nested p stack) : m.InStep := by
  have counted := nested.counted
  obtain ⟨depth, loops, calls, blocks⟩ := nested.stands.mirrors
  have open_ : m.openBlocks = Scope.blocks stack := by
    rw [openBlocks, depth]
    exact blocks
  constructor
  · rw [calls, loops, open_, depth]
    exact counted.numbers
  · rw [calls]
    exact counted.sorted_calls
  · rw [loops]
    exact counted.sorted_loops
  · rw [open_]
    exact sorted_blocks stack
  · rw [calls, loops]
    exact fun c member => counted.loopsBelow member
  · rw [calls, loops]
    exact fun l member => counted.callsBelow member

theorem Nested.nil_of_finished (nested : m.Nested p stack) (finished : m.finished = true) :
    stack = [] := by
  rcases nested.state with ⟨-, same⟩ | ⟨t, -, doing⟩
  · exact same
  · have running : m.finished = false := by
      cases doing with
      | done running => exact running
      | brace works => exact works.running
      | closing works => exact works.running
      | passing works => exact works.running
      | keyword works => exact works.running
      | reducing running => exact running
    rw [running] at finished
    cases finished

theorem Steps.nested (steps : m.Steps p stack m') : ∃ stack', m'.Nested p stack' := by
  cases steps with
  | moves moves =>
      obtain ⟨stack', nested, -⟩ := moves
      exact ⟨stack', nested⟩
  | enters c enters => exact ⟨.call c :: stack, enters.nested⟩
  | returns c rest returns => exact ⟨rest, returns.nested⟩

theorem Nested.after (nested : m.Nested p stack) (balanced : p.Balanced)
    (structured : p.BlockStructured) {k : Nat}
    (jumps : ∀ j m₁ m₂ stack₁, m.after j = .ok m₁ → m₁.Nested p stack₁ → m₁.next = .ok m₂ →
      m₁.JumpsWell)
    (reached : m.after k = .ok m') : ∃ stack', m'.Nested p stack' := by
  induction k generalizing m stack with
  | zero =>
      cases reached
      exact ⟨stack, nested⟩
  | succ k ih =>
      rw [after_succ] at reached
      cases step : m.next with
      | error stop => simp [step] at reached
      | ok m₁ =>
          rw [step] at reached
          obtain ⟨stack₁, nested₁⟩ :=
            (nested.steps balanced structured (jumps 0 m m₁ stack rfl nested step) step).nested
          refine ih nested₁ ?_ reached
          intro j m₂ m₃ stack₂ reached₂ nested₂ step₂
          refine jumps (j + 1) m₂ m₃ stack₂ ?_ nested₂ step₂
          rw [after_succ, step]
          exact reached₂

theorem nested_start (balanced : p.Balanced) (structured : p.BlockStructured)
    (settings : Settings) :
    (Machine.start p settings).machine.Nested p [] := by
  have stands : (Machine.initial p settings).Stands p [] :=
    ⟨rfl, by simp [Machine.initial], ⟨rfl, rfl, rfl, rfl⟩⟩
  obtain ⟨m, ran⟩ : ∃ m, (Action.goToLine 0).outcome (Machine.initial p settings) =
    .ok ((), m) := by
    cases found : p.lines[0]? with
    | none => exact ⟨_, outcome_goToLine_past found⟩
    | some line => exact ⟨_, outcome_goToLine found⟩
  have lands := stands.toLine balanced rfl structured settled_nil (show Nest p [] 0 from rfl) ran
  rw [Machine.start, Action.machine_of_outcome ran]
  exact lands.1

/-- In a run of a block-structured program whose jumps are admissible, all stacks stay in step, and
none has a frame left at the end. -/
theorem inStep_after {source : String} (loaded : Program.load source = .ok p)
    (structured : p.BlockStructured) (settings : Settings)
    (jumps : ∀ j m₁ m₂, (Machine.start p settings).machine.after j = .ok m₁ → m₁.next = .ok m₂ →
      m₁.JumpsWell) {k : Nat} (reached : (Machine.start p settings).machine.after k = .ok m) :
    m.InStep ∧ (m.finished = true → m.symbols.depth = 0 ∧ m.loops = [] ∧ m.calls = []) := by
  have balanced := Program.balanced_of_load loaded
  obtain ⟨stack, nested⟩ :=
    (nested_start balanced structured settings).after balanced structured
      (fun j m₁ m₂ _ reached₁ _ step => jumps j m₁ m₂ reached₁ step) reached
  refine ⟨nested.inStep, ?_⟩
  intro finished
  have none := nested.nil_of_finished finished
  have mirrors := nested.stands.mirrors
  rw [none] at mirrors
  exact ⟨mirrors.depth, mirrors.loops, mirrors.calls⟩

theorem jumpsWell_of_finished {n : Nat} (reached : m.after n = .ok m')
    (finished : m'.finished = true)
    (jumps : ∀ j < n, ∀ m₁ ∈ (m.after j).toOption, m₁.JumpsWell) :
    ∀ j m₁ m₂, m.after j = .ok m₁ → m₁.next = .ok m₂ → m₁.JumpsWell := by
  intro j m₁ m₂ reached₁ _
  rcases Nat.lt_or_ge j n with lt | ge
  · exact jumps j lt m₁ (Except.toOption_eq_some_iff.2 reached₁)
  · rw [after_of_le reached finished ge] at reached₁
    cases reached₁
    intro target jump
    simp [jumpTarget?, finished] at jump

def rootScript : String :=
  "def int root(int n) \x7b
int i = 0\nwhile true \x7b\ni += 1\nif i * i > n \x7b\ngoto done\n\x7d\n\x7d
@done\nreturn i\n\x7d\nint x = root(1) + 1"

def programOf (source : String) : Program :=
  (Program.load source).toOption.getD {}

def stateOf (source : String) (k : Nat) : Machine :=
  ((Machine.start (programOf source) {}).machine.after k).toOption.getD (Machine.initial {} {})

theorem inStep_rootScript :
    Program.load rootScript = .ok (programOf rootScript) ∧ (programOf rootScript).BlockStructured ∧
      (stateOf rootScript 25).jumpTarget? = some 8 ∧ (stateOf rootScript 25).InStep ∧
      (stateOf rootScript 30).finished = true ∧ (stateOf rootScript 30).symbols.depth = 0 ∧
      (stateOf rootScript 30).loops = [] ∧ (stateOf rootScript 30).calls = [] := by
  have checked : (Program.load rootScript).toOption.isSome = true ∧
      (programOf rootScript).BlockStructured ∧
      (∀ k < 31,
        ((Machine.start (programOf rootScript) {}).machine.after k).toOption.isSome = true) ∧
      (∀ j < 30, ∀ m₁ ∈ ((Machine.start (programOf rootScript) {}).machine.after j).toOption,
        m₁.JumpsWell) ∧
      (stateOf rootScript 30).finished = true ∧ (stateOf rootScript 25).jumpTarget? = some 8 := by
    decide +kernel
  obtain ⟨isSome, structured, all, jumps, finished, target⟩ := checked
  have loaded : Program.load rootScript = .ok (programOf rootScript) := Except.eq_ok_getD isSome _
  have reached : ∀ k < 31, (Machine.start (programOf rootScript) {}).machine.after k =
      .ok (stateOf rootScript k) := fun k lt => Except.eq_ok_getD (all k lt) _
  have jumps := jumpsWell_of_finished (reached 30 (by decide)) finished jumps
  exact ⟨loaded, structured, target,
    (inStep_after loaded structured {} jumps (reached 25 (by decide))).1, finished,
    (inStep_after loaded structured {} jumps (reached 30 (by decide))).2 finished⟩

end Machine

end LineScript
