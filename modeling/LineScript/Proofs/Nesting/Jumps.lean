import LineScript.Proofs.Nesting.Invariant

/-!
# Jumps of nested machines

A `goto` leaves the loops and blocks of the running function that its target is not in.  The scopes
of the function are an inner part without the target and an outer part with it (`Nest.split_at`),
and the jump closes exactly the inner part: the number of scopes that it keeps is that of the outer
part (`scopesKept_eq`).  If no block around the target would have to be entered, the outer part
nests around the target.
-/

namespace LineScript

open Scope

/-- The same functions are around both lines. -/
def Program.SameFunction (p : Program) (s t : Nat) : Prop :=
  ∀ e, p.FunctionBody e → (e.Encloses s ↔ e.Encloses t)

namespace Machine

def floor (m : Machine) : Nat :=
  match m.calls with
  | [] => 0
  | c :: _ => c.scopes + 1

/-- A `{` has opened a scope of the running function that is still open. -/
def HasOpen (m : Machine) (brace : Position) : Prop :=
  ∃ b ∈ m.blocks, b.brace = brace ∧ m.floor < b.depth ∧ b.depth ≤ m.symbols.depth

/-- The target of a jump is in the function of the current line, and all blocks around it, up to the
body of the function, are open. -/
structure CanJump (m : Machine) (target : Nat) : Prop where
  function : m.program.SameFunction m.work.index target
  blocks : ∀ e, m.program.IsBlock e → e.Encloses target →
    (∀ body, m.program.FunctionBody body → body.Encloses target →
      body.opening.line < e.opening.line) → m.HasOpen e.opening

def jumpTarget? (m : Machine) : Option Nat :=
  match m.finished, m.work.line.cells with
  | false, c :: d :: _ =>
      if c.token.kind = .keyword .goto then d.token.kind.name?.bind m.program.label? else none
  | _, _ => none

/-- The `goto` that the next step executes has an admissible target. -/
def JumpsWell (m : Machine) : Prop :=
  ∀ target, m.jumpTarget? = some target → m.CanJump target

end Machine

/-!
## Deciding whether a jump is admissible
-/

namespace Program

def braces (p : Program) : List Position :=
  p.lines.zipIdx.flatMap fun (line, t) =>
    (line.cells.getLast?.toList.filter isOpenBrace).map fun c => { line := t, token := c.ref }

def blocks (p : Program) : List Extent :=
  p.braces.filterMap fun opening =>
    (p.blockEnd opening).toOption.map fun closing => { opening, closing }

def functionBodies (p : Program) : List Extent :=
  p.lines.zipIdx.flatMap fun (line, t) =>
    (line.cells.filter fun c => c.token.kind = .keyword .define).filterMap fun c =>
      (p.blockAfter { line := t, token := c.ref }).toOption

theorem mem_braces {p : Program} {b : Position} : b ∈ p.braces ↔ p.BraceAt b := by
  obtain ⟨t, r⟩ := b
  simp only [braces, BraceAt, List.mem_flatMap, List.mem_map, List.mem_filter, Option.mem_toList,
    Prod.exists, List.mem_zipIdx_iff_getElem?, isOpenBrace, decide_eq_true_eq,
    Position.mk.injEq, List.getLast?_eq_some_iff]
  constructor
  · rintro ⟨line, t', found, c, ⟨⟨header, cells⟩, kind⟩, rfl, rfl⟩
    exact ⟨line, header, c, found, cells, kind, rfl⟩
  · rintro ⟨line, header, c, found, cells, kind, rfl⟩
    exact ⟨line, t, found, c, ⟨⟨header, cells⟩, kind⟩, rfl, rfl⟩

theorem mem_blocks {p : Program} {e : Extent} : e ∈ p.blocks ↔ p.IsBlock e := by
  obtain ⟨opening, closing⟩ := e
  simp only [blocks, List.mem_filterMap, Option.map_eq_some_iff,
    Except.toOption_eq_some_iff, mem_braces,
    Extent.mk.injEq]
  constructor
  · rintro ⟨b, brace, close, matched, rfl, rfl⟩
    exact ⟨brace, matched⟩
  · intro block
    exact ⟨opening, block.brace, closing, block.matched, rfl, rfl⟩

theorem mem_functionBodies {p : Program} {e : Extent} :
    e ∈ p.functionBodies ↔ p.FunctionBody e := by
  simp only [functionBodies, FunctionBody, List.mem_flatMap, List.mem_filterMap, List.mem_filter,
    Prod.exists, List.mem_zipIdx_iff_getElem?, decide_eq_true_eq, Except.toOption_eq_some_iff]
  constructor
  · rintro ⟨line, t, found, c, ⟨member, kind⟩, made⟩
    exact ⟨t, line, c, found, member, kind, made⟩
  · rintro ⟨t, line, c, found, member, kind, made⟩
    exact ⟨line, t, found, c, ⟨member, kind⟩, made⟩

end Program

instance (e : Extent) (t : Nat) : Decidable (e.Encloses t) :=
  inferInstanceAs (Decidable (_ ∧ _))

namespace Machine

instance (m : Machine) (brace : Position) : Decidable (m.HasOpen brace) :=
  inferInstanceAs (Decidable (∃ b ∈ m.blocks, _ ∧ _))

instance (m : Machine) (target : Nat) : Decidable (m.CanJump target) :=
  decidable_of_iff
    ((∀ e ∈ m.program.functionBodies, (e.Encloses m.work.index ↔ e.Encloses target)) ∧
      ∀ e ∈ m.program.blocks, e.Encloses target →
        (∀ body ∈ m.program.functionBodies, body.Encloses target →
          body.opening.line < e.opening.line) → m.HasOpen e.opening) (by
    simp only [Program.mem_blocks, Program.mem_functionBodies]
    exact ⟨fun ⟨a, b⟩ => ⟨a, b⟩, fun ⟨a, b⟩ => ⟨a, b⟩⟩)

instance (m : Machine) : Decidable m.JumpsWell :=
  inferInstanceAs (Decidable (∀ target ∈ m.jumpTarget?, m.CanJump target))

end Machine

/-!
## Scopes with and without a line
-/

def Scope.Holds (p : Program) (target : Nat) : Scope → Prop
  | .block b => b.line ∈ p.openAt target
  | .loop l => l.contains target = true
  | .call _ => True

def Scope.Bottom (base : List Scope) : Prop :=
  base = [] ∨ ∃ c rest, base = .call c :: rest

theorem Scope.exists_bottom (stack : List Scope) :
    ∃ upper base, stack = upper ++ base ∧ CallFree upper ∧ Bottom base := by
  induction stack with
  | nil => exact ⟨[], [], rfl, rfl, .inl rfl⟩
  | cons s stack ih =>
      obtain ⟨upper, base, rfl, free, bottom⟩ := ih
      cases s with
      | block b => exact ⟨.block b :: upper, base, rfl, free, bottom⟩
      | loop l => exact ⟨.loop l :: upper, base, rfl, free, bottom⟩
      | call c => exact ⟨[], .call c :: (upper ++ base), rfl, rfl, .inr ⟨c, _, rfl⟩⟩

namespace Nest

variable {p : Program} {upper base left kept : List Scope} {t target : Nat} {l : Loop}

theorem contains_of_mem (balanced : p.Balanced) (at_l : p.LoopAt l)
    (member : l.body.opening.line ∈ p.openAt target) : l.contains target = true := by
  have within := (at_l.block.encloses_iff balanced).2 member
  have header : l.header ≤ l.body.opening.line := by
    rcases at_l.headed.near with same | ⟨next, -⟩
    · omega
    · omega
  have first := within.1
  have last := within.2
  simp only [Loop.contains, Bool.and_eq_true, decide_eq_true_eq]
  omega

theorem target_of_contains (balanced : p.Balanced) (at_l : p.LoopAt l)
    (contains : l.contains target = true) :
    l.body.opening.line = target ∨ l.body.opening.line ∈ p.openAt target := by
  simp only [Loop.contains, Bool.and_eq_true, decide_eq_true_eq] at contains
  rcases Nat.lt_or_ge l.body.opening.line target with lt | ge
  · exact .inr ((at_l.block.encloses_iff balanced).1 ⟨lt, contains.2⟩)
  · refine .inl ?_
    rcases at_l.headed.near with same | ⟨next, -⟩
    · omega
    · omega

theorem holds_of_subset (nest : Nest p (upper ++ base) t) (balanced : p.Balanced)
    (free : CallFree upper) (more : ∀ i ∈ p.openAt t, i ∈ p.openAt target)
    (entered : Settled upper ∨ t ∈ p.openAt target) : ∀ s ∈ upper, s.Holds p target := by
  induction upper generalizing t with
  | nil => simp
  | cons s upper ih =>
      cases s with
      | block b =>
          have here : b.line ∈ p.openAt t := List.mem_of_head? nest.2.1
          have there := more _ here
          obtain ⟨newer, all⟩ := balanced.openAt_eq_append there
          have below := ih nest.2.2 free (fun i hi => by rw [all]; simp [hi]) (.inr there)
          intro s hs
          rcases List.mem_cons.1 hs with rfl | hs
          · exact there
          · exact below s hs
      | loop l =>
          obtain ⟨at_l, body, -, -, settled, below⟩ := nest
          have there : t ∈ p.openAt target := entered.resolve_left fun settled =>
            settled l upper rfl
          have rest := ih below free more (.inr there)
          intro s hs
          rcases List.mem_cons.1 hs with rfl | hs
          · exact contains_of_mem balanced at_l (body ▸ there)
          · exact rest s hs
      | call c => cases free

/-- The scopes that do not contain the target of a jump are the inner ones. -/
theorem split_at (nest : Nest p (upper ++ base) t) (balanced : p.Balanced) (free : CallFree upper)
    (target : Nat) : ∃ left kept, upper = left ++ kept ∧ (∀ s ∈ left, ¬ s.Holds p target) ∧
      ∀ s ∈ kept, s.Holds p target := by
  induction upper generalizing t with
  | nil => exact ⟨[], [], rfl, by simp, by simp⟩
  | cons s upper ih =>
      by_cases holds : s.Holds p target
      · refine ⟨[], s :: upper, rfl, by simp, ?_⟩
        suffices below : ∀ s ∈ upper, s.Holds p target by
          intro s' hs
          rcases List.mem_cons.1 hs with rfl | hs
          · exact holds
          · exact below s' hs
        cases s with
        | block b =>
            obtain ⟨newer, all⟩ := balanced.openAt_eq_append holds
            exact nest.2.2.holds_of_subset balanced free (fun i hi => by rw [all]; simp [hi])
              (.inr holds)
        | loop l =>
            obtain ⟨at_l, body, -, -, settled, below⟩ := nest
            have entered : Settled upper := by
              rintro l' rest rfl
              exact settled l' _ rfl
            refine below.holds_of_subset balanced free ?_ (.inl entered)
            rcases target_of_contains balanced at_l holds with same | member
            · rw [body, same]
              exact fun i hi => hi
            · obtain ⟨newer, all⟩ := balanced.openAt_eq_append member
              intro i hi
              rw [all]
              simp [← body, hi]
        | call c => cases free
      · have onward : ∃ t', Nest p (upper ++ base) t' ∧ CallFree upper := by
          cases s with
          | block b => exact ⟨b.line, nest.2.2, free⟩
          | loop l => exact ⟨t, nest.2.2.2.2.2, free⟩
          | call c => cases free
        obtain ⟨t', below, free'⟩ := onward
        obtain ⟨left, kept, rfl, out, within⟩ := ih below free'
        refine ⟨s :: left, kept, rfl, ?_, within⟩
        intro s' hs
        rcases List.mem_cons.1 hs with rfl | hs
        · exact holds
        · exact out s' hs

theorem mem_of_block (nest : Nest p (upper ++ base) t) (balanced : p.Balanced)
    (free : CallFree upper) {b : Position} (member : .block b ∈ upper) : b.line ∈ p.openAt t := by
  obtain ⟨x, y, rfl⟩ := List.append_of_mem member
  rw [List.append_assoc] at nest
  exact nest.mem_openAt balanced (callFree_append.1 free).1 rfl

/-- An open brace is that of a block of the running function, or it is not inside of
the function. -/
theorem block_of_mem (nest : Nest p (upper ++ base) t) (balanced : p.Balanced)
    (free : CallFree upper) (bottom : Bottom base) {i : Nat} (member : i ∈ p.openAt t) :
    (∃ b, .block b ∈ upper ∧ b.line = i) ∨
      ∃ c rest, base = .call c :: rest ∧ i ≤ c.function.body.opening.line := by
  induction upper generalizing t with
  | nil =>
      rcases bottom with rfl | ⟨c, rest, rfl⟩
      · rw [show p.openAt t = [] from nest] at member
        cases member
      · obtain ⟨outer, all⟩ := List.head?_eq_some_iff.1 nest.2.1
        refine .inr ⟨c, rest, rfl, ?_⟩
        rw [all, List.mem_cons] at member
        rcases member with rfl | member
        · exact Nat.le_refl _
        · rw [balanced.openAt_head all] at member
          exact Nat.le_of_lt (balanced.lt_of_mem_openAt member)
  | cons s upper ih =>
      cases s with
      | block b =>
          obtain ⟨outer, all⟩ := List.head?_eq_some_iff.1 nest.2.1
          rw [all, List.mem_cons] at member
          rcases member with rfl | member
          · exact .inl ⟨b, by simp, rfl⟩
          · rw [balanced.openAt_head all] at member
            rcases ih nest.2.2 free member with ⟨b', inside, line⟩ | below
            · exact .inl ⟨b', List.mem_cons_of_mem _ inside, line⟩
            · exact .inr below
      | loop l =>
          rcases ih nest.2.2.2.2.2 free member with ⟨b', inside, line⟩ | below
          · exact .inl ⟨b', List.mem_cons_of_mem _ inside, line⟩
          · exact .inr below
      | call c => cases free

end Nest

/-!
## What a jump keeps
-/

/-- The scopes of a machine from the point of view of a jump: those that it leaves, those of the
running function that it keeps, and the others. -/
structure Machine.Cut (m : Machine) (p : Program) (t target : Nat) (left kept base : List Scope) :
    Prop where
  mirrors : m.Mirrors (left ++ (kept ++ base))
  nest : Nest p (left ++ (kept ++ base)) t
  freeLeft : CallFree left
  freeKept : CallFree kept
  bottom : Bottom base
  out : ∀ s ∈ left, ¬ s.Holds p target
  within : ∀ s ∈ kept, s.Holds p target

namespace Machine

namespace Cut

variable {m : Machine} {p : Program} {t target : Nat} {left kept base : List Scope} {l : Loop}

theorem calls (cut : m.Cut p t target left kept base) : m.calls = Scope.calls base := by
  rw [cut.mirrors.calls, calls_append, calls_append, cut.freeLeft, cut.freeKept]
  rfl

theorem floor (cut : m.Cut p t target left kept base) : m.floor = base.length := by
  obtain ⟨t₁, nest₁⟩ := cut.nest.outer cut.freeLeft
  obtain ⟨t₂, nest₂⟩ := nest₁.outer cut.freeKept
  rw [Machine.floor, cut.calls]
  rcases cut.bottom with rfl | ⟨c, rest, rfl⟩
  · rfl
  · rw [calls_call, List.length_cons]
    exact congrArg (· + 1) nest₂.2.2.1

theorem contains_left (cut : m.Cut p t target left kept base) (member : l ∈ Scope.loops left) :
    l.calls = m.calls.length ∧ l.contains target = false ∧ (kept ++ base).length ≤ l.scopes := by
  obtain ⟨began, scopes⟩ := cut.nest.own_loops cut.freeLeft member
  have out := cut.out _ (mem_loops.1 member)
  refine ⟨?_, by simpa [Scope.Holds] using out, scopes⟩
  rw [began, cut.calls, calls_append, cut.freeKept]
  rfl

theorem contains_kept (cut : m.Cut p t target left kept base)
    (member : l ∈ Scope.loops (kept ++ base)) :
    l.calls ≠ m.calls.length ∨ l.contains target = true := by
  rw [loops_append, List.mem_append] at member
  rcases member with member | member
  · exact .inr (cut.within _ (mem_loops.1 member))
  · left
    obtain ⟨t₁, nest₁⟩ := cut.nest.outer cut.freeLeft
    obtain ⟨t₂, nest₂⟩ := nest₁.outer cut.freeKept
    rw [cut.calls]
    rcases cut.bottom with rfl | ⟨c, rest, rfl⟩
    · cases member
    · obtain ⟨t₃, -, below⟩ := nest₂.2.2.2.2
      have le := below.calls_le member
      rw [calls_call, List.length_cons]
      omega

theorem leftLoops (cut : m.Cut p t target left kept base) :
    (m.loops.filter fun l => decide (l.calls = m.calls.length) && !l.contains target) =
      Scope.loops left := by
  rw [cut.mirrors.loops, loops_append, List.filter_append]
  have all : (Scope.loops left).filter (fun l =>
    decide (l.calls = m.calls.length) && !l.contains target) =
      Scope.loops left := by
    rw [List.filter_eq_self]
    intro l member
    simp [cut.contains_left member]
  have none : (Scope.loops (kept ++ base)).filter
      (fun l => decide (l.calls = m.calls.length) && !l.contains target) = [] := by
    rw [List.filter_eq_nil_iff]
    intro l member
    rcases cut.contains_kept member with other | contains
    · simp [other]
    · simp [contains]
  rw [all, none, List.append_nil]

theorem keptLoops (cut : m.Cut p t target left kept base) :
    (m.loops.filter fun l => decide (l.calls ≠ m.calls.length) || l.contains target) =
      Scope.loops (kept ++ base) := by
  rw [cut.mirrors.loops, loops_append left, List.filter_append]
  have none : (Scope.loops left).filter (fun l =>
    decide (l.calls ≠ m.calls.length) || l.contains target) =
      [] := by
    rw [List.filter_eq_nil_iff]
    intro l member
    simp [cut.contains_left member]
  have all : (Scope.loops (kept ++ base)).filter
      (fun l => decide (l.calls ≠ m.calls.length) || l.contains target) =
        Scope.loops (kept ++ base) := by
    rw [List.filter_eq_self]
    intro l member
    rcases cut.contains_kept member with other | contains
    · simp [other]
    · simp [contains]
  rw [none, all, List.nil_append]

theorem mem_ownBlocks (cut : m.Cut p t target left kept base) {b : Block} :
    b ∈ m.blocks.filter (fun b => decide (m.floor < b.depth) &&
      decide (b.depth ≤ m.symbols.depth)) ↔
      ∃ inner outer, left ++ kept = inner ++ .block b.brace :: outer ∧
        b.depth = (outer ++ base).length + 1 := by
  have all := cut.mirrors.blocks
  rw [← cut.mirrors.depth] at all
  rw [← List.filter_filter, all, List.mem_filter, mem_blocks, cut.floor, decide_eq_true_eq]
  constructor
  · rintro ⟨⟨inner, outer, split, depth⟩, above⟩
    have split' : (left ++ kept) ++ base = (inner ++ [.block b.brace]) ++ outer := by
      rw [List.append_assoc, split]
      simp
    rcases List.append_eq_append_iff.1 split' with ⟨x, inside, below⟩ | ⟨x, inside, below⟩
    · -- A scope that is not below the function.
      have none : x = [] := by
        rw [depth, below, List.length_append] at above
        exact List.eq_nil_of_length_eq_zero (by omega)
      rw [none, List.append_nil] at inside
      rw [none, List.nil_append] at below
      exact ⟨inner, [], inside.symm, by rw [List.nil_append, below, depth]⟩
    · exact ⟨inner, x, by simp [inside], by rw [depth, below]⟩
  · rintro ⟨inner, outer, split, depth⟩
    refine ⟨⟨inner, outer ++ base, ?_, depth⟩, ?_⟩
    · rw [← List.append_assoc, split]
      simp
    · rw [depth, List.length_append]
      omega

theorem foldl_scopes (ls : List Loop) (opened : Nat) :
    ls.foldl (fun keep l => min keep l.scopes) opened ≤ opened ∧
      (∀ l ∈ ls, ls.foldl (fun keep l => min keep l.scopes) opened ≤ l.scopes) ∧
      ∀ n ≤ opened, (∀ l ∈ ls, n ≤ l.scopes) →
        n ≤ ls.foldl (fun keep l => min keep l.scopes) opened := by
  induction ls generalizing opened with
  | nil =>
      refine ⟨Nat.le_refl _, by simp, ?_⟩
      intro n le _
      exact le
  | cons l ls ih =>
      obtain ⟨start, each, most⟩ := ih (min opened l.scopes)
      rw [List.foldl_cons]
      refine ⟨by omega, ?_, ?_⟩
      · intro l' hl
        rcases List.mem_cons.1 hl with rfl | hl
        · omega
        · exact each l' hl
      · intro n le all
        have first := all l (by simp)
        exact most n (by omega) fun l' hl => all l' (List.mem_cons_of_mem _ hl)

theorem keptByBlock_eq (balanced : p.Balanced) {b : Block} (brace : p.BraceAt b.brace)
    (positive : 0 < b.depth) (keep : Nat) :
    Action.keptByBlock p target keep b =
      .ok (if b.brace.line ∈ p.openAt target then keep else min keep (b.depth - 1)) := by
  obtain ⟨closing, close, matched, -⟩ := brace.exists_block balanced
  have block : p.IsBlock { opening := b.brace, closing } := ⟨brace, matched⟩
  have within := block.encloses_iff balanced (t := target)
  simp only [Extent.Encloses] at within
  simp only [Action.keptByBlock, matched, Except.bind_eq_bind, Except.bind_ok, Except.pure_eq_ok]
  by_cases inside : b.brace.line ∈ p.openAt target
  · have := within.2 inside
    rw [if_neg (by omega), if_pos inside]
  · have : ¬ (b.brace.line < target ∧ target ≤ closing.line) := fun h => inside (within.1 h)
    obtain ⟨depth, same⟩ := Nat.exists_eq_add_of_lt positive
    rw [Nat.zero_add] at same
    rw [if_pos (by omega), if_neg inside, same]
    rfl

theorem foldlM_keptByBlock (balanced : p.Balanced) (target : Nat) {blocks : List Block}
    (braces : ∀ b ∈ blocks, p.BraceAt b.brace ∧ 0 < b.depth) (opened : Nat) :
    ∃ keep, blocks.foldlM (Action.keptByBlock p target) opened = .ok keep ∧ keep ≤ opened ∧
      (∀ b ∈ blocks, b.brace.line ∉ p.openAt target → keep ≤ b.depth - 1) ∧
      ∀ n ≤ opened,
        (∀ b ∈ blocks, b.brace.line ∉ p.openAt target → n ≤ b.depth - 1) → n ≤ keep := by
  induction blocks generalizing opened with
  | nil =>
      refine ⟨opened, rfl, Nat.le_refl _, by simp, ?_⟩
      intro n le _
      exact le
  | cons b blocks ih =>
      have later : ∀ b ∈ blocks, p.BraceAt b.brace ∧ 0 < b.depth :=
        fun b hb => braces b (List.mem_cons_of_mem _ hb)
      obtain ⟨brace, positive⟩ := braces b (by simp)
      rw [List.foldlM_cons, keptByBlock_eq balanced brace positive, Except.bind_eq_bind,
        Except.bind_ok]
      obtain ⟨keep, same, start, each, most⟩ :=
        ih later (if b.brace.line ∈ p.openAt target then opened else min opened (b.depth - 1))
      refine ⟨keep, same, ?_, ?_, ?_⟩
      · split at start <;> omega
      · intro b' hb out
        rcases List.mem_cons.1 hb with rfl | hb
        · rw [if_neg out] at start
          omega
        · exact each b' hb out
      · intro n le all
        refine most n ?_ fun b' hb => all b' (List.mem_cons_of_mem _ hb)
        by_cases inside : b.brace.line ∈ p.openAt target
        · rwa [if_pos inside]
        · have first := all b (by simp) inside
          rw [if_neg inside]
          omega

/-- A jump closes the scopes that do not contain its target. -/
theorem scopesKept (cut : m.Cut p t target left kept base) (balanced : p.Balanced)
    (program : m.program = p) : Action.scopesKept m target = .ok (kept ++ base).length := by
  have leftLoops := cut.leftLoops
  have floor := cut.floor
  obtain ⟨start, each, most⟩ := foldl_scopes (Scope.loops left) m.symbols.depth
  generalize hfold : (Scope.loops left).foldl
    (fun keep l => min keep l.scopes) m.symbols.depth = keep₁
    at start each most
  have braces : ∀ b ∈ m.blocks.filter
      (fun b => decide (m.floor < b.depth) && decide (b.depth ≤ m.symbols.depth)),
      p.BraceAt b.brace ∧ 0 < b.depth := by
    intro b member
    have deep : m.floor < b.depth := by
      have := (List.mem_filter.1 member).2
      simp only [Bool.and_eq_true, decide_eq_true_eq] at this
      exact this.1
    refine ⟨?_, Nat.zero_lt_of_lt deep⟩
    obtain ⟨inner, outer, split, -⟩ := cut.mem_ownBlocks.1 member
    have nest := cut.nest
    rw [← List.append_assoc, split, List.append_assoc] at nest
    have free := callFree_append.2 ⟨cut.freeLeft, cut.freeKept⟩
    rw [split] at free
    obtain ⟨t', brace, -⟩ := nest.outer (callFree_append.1 free).1
    exact brace
  obtain ⟨keep, same, start', each', most'⟩ := foldlM_keptByBlock balanced target braces keep₁
  have result : Action.scopesKept m target = .ok keep := by
    rw [← same, ← hfold, ← leftLoops, ← program]
    rfl
  rw [result]
  congr 1
  have whole := cut.mirrors.depth
  rw [List.length_append] at whole
  refine Nat.le_antisymm ?_ ?_
  · rcases List.eq_nil_or_concat left with rfl | ⟨inner, s, rfl⟩
    · rw [List.length_nil] at whole
      omega
    · -- The outermost scope that is left is above all that are kept.
      rw [List.concat_eq_append] at cut each
      have nest := cut.nest
      rw [List.append_assoc] at nest
      have free := callFree_append.1 cut.freeLeft
      obtain ⟨t', nest'⟩ := nest.outer free.1
      have out := cut.out s (by simp)
      cases s with
      | block b =>
          refine each' { depth := (kept ++ base).length + 1, brace := b } ?_ out
          exact cut.mem_ownBlocks.2 ⟨inner, kept, by simp, rfl⟩
      | loop l =>
          have le := each l (by simp)
          rw [nest'.2.2.1] at le
          exact Nat.le_trans start' le
      | call c => exact absurd trivial out
  · refine most' _ (most _ (by omega) fun l hl => (cut.contains_left hl).2.2) ?_
    intro b member out
    obtain ⟨inner, outer, split, depth⟩ := cut.mem_ownBlocks.1 member
    have elsewhere : .block b.brace ∉ kept := fun inside => out (cut.within _ inside)
    rcases List.append_eq_append_iff.1 split with ⟨x, -, inside⟩ | ⟨x, -, inside⟩
    · exact absurd (by simp [inside]) elsewhere
    · cases x with
      | nil =>
          rw [List.nil_append] at inside
          exact absurd (by simp [← inside]) elsewhere
      | cons s x =>
          have below : outer = x ++ kept := (List.cons.inj inside).2
          rw [depth, below]
          simp only [List.length_append]
          omega

/-!
## Around the target
-/

/-- All blocks around the target are kept, up to the body of the function. -/
theorem block_kept (cut : m.Cut p t target left kept base) (balanced : p.Balanced)
    (program : m.program = p) (index : m.work.index = t) (can : m.CanJump target) {i : Nat}
    (member : i ∈ p.openAt target) :
    (∃ b, .block b ∈ kept ∧ b.line = i) ∨
      ∃ c rest, base = .call c :: rest ∧ i ≤ c.function.body.opening.line := by
  have keeps : ∀ b : Position, .block b ∈ left ++ kept → b.line = i → .block b ∈ kept := by
    rintro b inside rfl
    rcases List.mem_append.1 inside with gone | inside
    · exact absurd member (cut.out _ gone)
    · exact inside
  by_cases inner : ∃ body, p.FunctionBody body ∧ body.Encloses target ∧ i ≤ body.opening.line
  · -- The function is around the current line as well, and so are all blocks around the function.
    obtain ⟨body, isBody, around, le⟩ := inner
    have around' := (can.function body (program ▸ isBody)).2 around
    have open_ := ((isBody.block balanced).encloses_iff balanced).1 (index ▸ around')
    have here : i ∈ p.openAt t := by
      rcases Nat.eq_or_lt_of_le le with rfl | lt
      · exact open_
      · obtain ⟨newer, all⟩ := balanced.openAt_eq_append open_
        rw [all]
        simp [balanced.mem_openAt_of_le member lt (Nat.le_of_lt around.1)]
    have nest := cut.nest
    rw [← List.append_assoc] at nest
    rcases nest.block_of_mem balanced (callFree_append.2 ⟨cut.freeLeft, cut.freeKept⟩) cut.bottom
      here with ⟨b, inside, line⟩ | below
    · exact .inl ⟨b, keeps b inside line, line⟩
    · exact .inr below
  · obtain ⟨e, block, line⟩ := balanced.block_of_mem_openAt member
    have around : e.Encloses target := (block.encloses_iff balanced).2 (line ▸ member)
    obtain ⟨b, inside, brace, above, open_⟩ := can.blocks e (program ▸ block) around (by
      intro body isBody within
      rcases Nat.lt_or_ge body.opening.line e.opening.line with lt | ge
      · exact lt
      · exact absurd ⟨body, program ▸ isBody, within, line ▸ ge⟩ inner)
    obtain ⟨x, y, split, -⟩ := cut.mem_ownBlocks.1
      (List.mem_filter.2 ⟨inside, by simp [above, open_]⟩)
    refine .inl ⟨e.opening, keeps _ ?_ line, line⟩
    rw [split, brace]
    simp

theorem head_openAt (balanced : p.Balanced) {i : Nat} (member : i ∈ p.openAt t)
    (last : ∀ j ∈ p.openAt t, j ≤ i) : (p.openAt t).head? = some i := by
  cases all : p.openAt t with
  | nil =>
      rw [all] at member
      cases member
  | cons j outer =>
      rw [all, List.mem_cons] at member
      rcases member with rfl | member
      · rfl
      · rw [balanced.openAt_head all] at member
        have lt := balanced.lt_of_mem_openAt member
        have le := last j (by simp [all])
        omega

theorem opening_eq (cut : m.Cut p t target left (.loop l :: kept) base) (balanced : p.Balanced)
    (settled : Settled (left ++ (.loop l :: kept ++ base))) : l.body.opening.line = target := by
  have nest := cut.nest
  rcases List.eq_nil_or_concat left with rfl | ⟨inner, s, rfl⟩
  · exact absurd rfl (settled l _)
  · rw [List.concat_eq_append, List.append_assoc] at nest
    have free := cut.freeLeft
    rw [List.concat_eq_append, callFree_append] at free
    obtain ⟨t', nest'⟩ := nest.outer free.1
    have out := cut.out s (by simp)
    cases s with
    | block b =>
        have body := nest'.2.2.2.1
        rcases Nest.target_of_contains balanced nest'.2.2.1 (cut.within (.loop l) (by simp)) with
          same | member
        · exact same
        · rw [← body] at member
          exact absurd member out
    | loop l' => exact absurd rfl (nest'.2.2.2.2.1 l _)
    | call c => cases free.2

/-- The scopes that are kept nest around the target. -/
theorem nest_target (cut : m.Cut p t target left kept base) (balanced : p.Balanced)
    (program : m.program = p) (index : m.work.index = t) (can : m.CanJump target)
    (settled : Settled (left ++ (kept ++ base))) : Nest p (kept ++ base) target := by
  obtain ⟨t₁, nest₁⟩ := cut.nest.outer cut.freeLeft
  have blocks := fun i member => cut.block_kept balanced program index can (i := i) member
  cases kept with
  | nil =>
      rcases cut.bottom with rfl | ⟨c, rest, rfl⟩
      · cases all : p.openAt target with
        | nil => exact all
        | cons i outer =>
            rcases blocks i (by simp [all]) with ⟨b, member, -⟩ | ⟨c, rest, same, -⟩
            · cases member
            · cases same
      · have body := nest₁.1
        have here : c.function.body.opening.line ∈ p.openAt t :=
          cut.nest.mem_openAt balanced cut.freeLeft rfl
        have around := ((body.block balanced).encloses_iff balanced).2 here
        have there := (can.function _ (program ▸ body)).1 (index ▸ around)
        refine ⟨body, head_openAt balanced
          (((body.block balanced).encloses_iff balanced).1 there) ?_,
          nest₁.2.2⟩
        intro i member
        rcases blocks i member with ⟨b, member, -⟩ | ⟨c', rest', same, le⟩
        · cases member
        · cases same
          exact le
  | cons s kept =>
      cases s with
      | block b =>
          have here : b.line ∈ p.openAt target := cut.within (.block b) (by simp)
          refine ⟨nest₁.1, head_openAt balanced here ?_, nest₁.2.2⟩
          have free : CallFree kept := cut.freeKept
          intro i member
          rcases blocks i member with ⟨b', inside, rfl⟩ | ⟨c, rest, rfl, le⟩
          · rcases List.mem_cons.1 inside with same | inside
            · cases same
              exact Nat.le_refl _
            · exact Nat.le_of_lt (balanced.lt_of_mem_openAt
                (nest₁.2.2.mem_of_block balanced free inside))
          · have lt := balanced.lt_of_mem_openAt (nest₁.2.2.mem_openAt balanced free rfl)
            exact Nat.le_of_lt (Nat.lt_of_le_of_lt le lt)
      | loop l =>
          have same : l.body.opening.line = target := cut.opening_eq balanced settled
          have here := nest₁.2.1
          rw [here, same] at nest₁
          exact nest₁
      | call c => cases cut.freeKept

end Cut

variable {m m' : Machine} {p : Program} {stack : List Scope} {t target : Nat}

/-- The line of the target is begun, perhaps with the `{` of a loop that is already running. -/
theorem Stands.toTarget (balanced : p.Balanced) (structured : p.BlockStructured)
    (stands : m.Stands p stack) (running : m.finished = false) (nest : Nest p stack target)
    (below : ∀ l rest, stack = .loop l :: rest → l.header < target)
    (ran : (Action.goToLine target).outcome m = .ok ((), m')) : m.Lands p stack m' := by
  by_cases settled : Settled stack
  · exact stands.toLine balanced running structured settled nest ran
  · obtain ⟨l, rest, rfl⟩ : ∃ l rest, stack = .loop l :: rest := by
      cases stack with
      | nil => exact absurd settled_nil settled
      | cons s rest =>
          cases s with
          | block b => exact absurd (settled_block b rest) settled
          | loop l => exact ⟨l, rest, rfl⟩
          | call c => exact absurd (settled_call c rest) settled
    have header := below l rest rfl
    have body := nest.2.1
    obtain ⟨line, before, c, found, cells, kind, ref⟩ := id nest.1.headed.brace
    rcases nest.1.headed.near with same | ⟨-, line', d, found', alone⟩
    · omega
    · rw [found] at found'
      cases found'
      rw [← body] at found
      have first : line.cells = [c] := by
        rw [alone] at cells ⊢
        cases before with
        | nil => exact cells
        | cons x before => simp at cells
      rw [outcome_goToLine (stands.program ▸ found)] at ran
      cases ran
      have loaded := balanced.loaded.line found
      refine ⟨⟨stands.withWork _, .inr ⟨target, nest, .brace (c := c) ?_ kind ?_⟩⟩, rfl⟩
      · rw [← first]
        exact ⟨running, rfl, rfl, rfl, loaded.distinct, by simp⟩
      · exact ⟨line, [], c, found, first, kind, rfl⟩

theorem jumpToLabel_moves (balanced : p.Balanced) (structured : p.BlockStructured)
    (stands : m.Stands p stack) (running : m.finished = false) (settled : Settled stack)
    (nest : Nest p stack t) (index : m.work.index = t) {c : Cell} {after : List Cell}
    (cells : m.work.line.cells = c :: after) (kind : c.token.kind = .keyword .goto)
    (able : m.JumpsWell)
    (ran : (Action.jumpToLabel ⟨[], c, after⟩).outcome m = .ok ((), m')) : m.Moves p stack m' := by
  unfold Action.jumpToLabel at ran
  split at ran
  · rename_i name named
    obtain ⟨m₀, m₁, same, ran₁⟩ := Action.outcome_bind_ok ran
    cases same
    split at ran₁
    · cases ran₁
    · rename_i target labelled
      have can : m.CanJump target := by
        refine able target ?_
        obtain ⟨d, next, word⟩ := Option.bind_eq_some_iff.1 named
        obtain ⟨rest, follows⟩ := List.head?_eq_some_iff.1 (show after.head? = some d from next)
        simp only [jumpTarget?, running, cells, follows, kind, if_true, word, Option.bind_some]
        exact labelled
      obtain ⟨upper, base, rfl, free, bottom⟩ := Scope.exists_bottom stack
      obtain ⟨left, kept, rfl, out, within⟩ := nest.split_at balanced free target
      obtain ⟨freeLeft, freeKept⟩ := callFree_append.1 free
      rw [List.append_assoc] at stands nest settled ⊢
      have cut : m.Cut p t target left kept base :=
        ⟨stands.mirrors, nest, freeLeft, freeKept, bottom, out, within⟩
      have there := cut.nest_target balanced stands.program index can settled
      obtain ⟨keep, m₂, hkeep, ran₂⟩ := Action.outcome_bind_ok ran₁
      obtain ⟨same, rfl⟩ := Action.ofExcept_ok hkeep
      rw [cut.scopesKept balanced stands.program] at same
      cases same
      simp only [Action.outcome_bind, Action.outcome_modify, Action.outcome_emit, Except.bind_ok,
        cut.keptLoops] at ran₂
      have stands' : ∀ gotos, ({ m₂ with
          symbols := m₂.symbols.unwind (kept ++ base).length
          gotos
          loops := Scope.loops (kept ++ base)
          blocks := m₂.blocks.filter fun b => decide (b.depth ≤ (kept ++ base).length) } :
            Machine).Stands p (kept ++ base) := by
        intro gotos
        refine ⟨stands.program, stands.functions, cut.mirrors.shrink ?_ rfl ?_ ?_⟩
        · rw [Symbols.depth_unwind, stands.mirrors.depth, List.length_append]
          omega
        · rw [show m₂.calls = _ from cut.calls, calls_append, freeKept]
          rfl
        · rw [List.filter_filter]
          simp only [Bool.and_self]
      have below : ∀ l rest, kept ++ base = .loop l :: rest → l.header < target := by
        intro l rest top
        have member : .loop l ∈ kept := by
          cases kept with
          | nil =>
              rcases bottom with rfl | ⟨c, rest', rfl⟩
              · cases top
              · cases top
          | cons s kept =>
              cases top
              simp
        have contains : l.contains target = true := within _ member
        simp only [Loop.contains, Bool.and_eq_true, decide_eq_true_eq] at contains
        exact contains.1
      have lands := (stands' _).toTarget balanced structured (by exact running) there below ran₂
      refine lands.moves.after ?_
      exact shifts_unwind freeLeft (Nat.le_refl _) rfl
  · cases ran

end Machine

end LineScript
