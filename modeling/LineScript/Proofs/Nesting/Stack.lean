import LineScript.Proofs.Nesting.Rewriting
import LineScript.Proofs.Working

/-!
# One stack of scopes

Blocks, loops and calls each open a scope.  A stack of scopes, the innermost first, says what opened
each of them.  `Machine.Mirrors m stack` says that the variables, loops, calls and blocks of a
machine are what such a stack consists of, and `Nest p stack t` that its scopes are those that the
program has around line `t`: from a scope to the one below it, the position goes from the inside of
a block to the outside.
-/

namespace LineScript

inductive Scope where
  | block (brace : Position)
  | loop (loop : Loop)
  | call (call : Call)

namespace Scope

def loop? : Scope → Option Loop
  | .loop l => some l
  | _ => none

def call? : Scope → Option Call
  | .call c => some c
  | _ => none

def loops (stack : List Scope) : List Loop :=
  stack.filterMap loop?

def calls (stack : List Scope) : List Call :=
  stack.filterMap call?

def blocks : List Scope → List Block
  | [] => []
  | .block brace :: rest => blocks rest ++ [{ depth := rest.length + 1, brace }]
  | .loop _ :: rest => blocks rest
  | .call _ :: rest => blocks rest

@[simp] theorem loops_nil : loops [] = [] := rfl

@[simp] theorem loops_block (b : Position) (rest : List Scope) :
    loops (.block b :: rest) = loops rest := rfl

@[simp] theorem loops_loop (l : Loop) (rest : List Scope) :
    loops (.loop l :: rest) = l :: loops rest := rfl

@[simp] theorem loops_call (c : Call) (rest : List Scope) :
    loops (.call c :: rest) = loops rest := rfl

@[simp] theorem calls_nil : calls [] = [] := rfl

@[simp] theorem calls_block (b : Position) (rest : List Scope) :
    calls (.block b :: rest) = calls rest := rfl

@[simp] theorem calls_loop (l : Loop) (rest : List Scope) :
    calls (.loop l :: rest) = calls rest := rfl

@[simp] theorem calls_call (c : Call) (rest : List Scope) :
    calls (.call c :: rest) = c :: calls rest := rfl

@[simp] theorem loops_append (a b : List Scope) : loops (a ++ b) = loops a ++ loops b :=
  List.filterMap_append

@[simp] theorem calls_append (a b : List Scope) : calls (a ++ b) = calls a ++ calls b :=
  List.filterMap_append

def line? : Scope → Option Nat
  | .block b => some b.line
  | .loop _ => none
  | .call c => some c.function.body.opening.line

theorem mem_loops {l : Loop} {stack : List Scope} : l ∈ loops stack ↔ .loop l ∈ stack := by
  induction stack with
  | nil => simp
  | cons s rest ih => cases s <;> simp [ih]

def CallFree (stack : List Scope) : Prop :=
  calls stack = []

@[simp] theorem callFree_append {a b : List Scope} : CallFree (a ++ b) ↔
  CallFree a ∧ CallFree b := by
  simp [CallFree]

/-- The innermost scope is not that of a loop, whose body would still have to be entered. -/
def Settled (stack : List Scope) : Prop :=
  ∀ l rest, stack ≠ .loop l :: rest

@[simp] theorem settled_nil : Settled [] := nofun

@[simp] theorem settled_block (b : Position) (rest : List Scope) :
  Settled (.block b :: rest) := nofun

@[simp] theorem settled_call (c : Call) (rest : List Scope) : Settled (.call c :: rest) := nofun

/-- A record tells how many scopes there are up to that of its block. -/
theorem mem_blocks {stack : List Scope} {b : Block} :
    b ∈ blocks stack ↔
      ∃ inner outer, stack = inner ++ .block b.brace :: outer ∧ b.depth = outer.length + 1 := by
  constructor
  · intro member
    induction stack with
    | nil => cases member
    | cons s rest ih =>
        cases s with
        | block brace =>
            rw [blocks, List.mem_append, List.mem_singleton] at member
            rcases member with member | rfl
            · obtain ⟨inner, outer, rfl, depth⟩ := ih member
              exact ⟨_ :: inner, outer, rfl, depth⟩
            · exact ⟨[], rest, rfl, rfl⟩
        | loop l =>
            obtain ⟨inner, outer, rfl, depth⟩ := ih member
            exact ⟨_ :: inner, outer, rfl, depth⟩
        | call c =>
            obtain ⟨inner, outer, rfl, depth⟩ := ih member
            exact ⟨_ :: inner, outer, rfl, depth⟩
  · rintro ⟨inner, outer, rfl, depth⟩
    induction inner with
    | nil =>
        rw [List.nil_append, blocks, List.mem_append, List.mem_singleton]
        exact .inr (by rw [← depth])
    | cons s inner ih =>
        cases s with
        | block brace => exact List.mem_append_left _ ih
        | loop l => exact ih
        | call c => exact ih

theorem depth_blocks {stack : List Scope} {b : Block} (member : b ∈ blocks stack) :
    b.depth ≤ stack.length := by
  obtain ⟨inner, outer, rfl, depth⟩ := mem_blocks.1 member
  rw [depth, List.length_append, List.length_cons]
  omega

theorem filter_blocks (inner outer : List Scope) :
    (blocks (inner ++ outer)).filter (fun b => decide (b.depth ≤ outer.length)) = blocks outer := by
  induction inner with
  | nil =>
      rw [List.nil_append, List.filter_eq_self]
      exact fun b hb => decide_eq_true (depth_blocks hb)
  | cons s inner ih =>
      cases s with
      | block brace =>
          have above : ¬ (inner ++ outer).length + 1 ≤ outer.length := by
            rw [List.length_append]
            omega
          rw [List.cons_append, blocks, List.filter_append, ih,
            List.filter_cons_of_neg (by exact mt of_decide_eq_true above), List.filter_nil,
            List.append_nil]
      | loop l => exact ih
      | call c => exact ih

end Scope

open Scope

structure Machine.Mirrors (m : Machine) (stack : List Scope) : Prop where
  depth : m.symbols.depth = stack.length
  loops : m.loops = Scope.loops stack
  calls : m.calls = Scope.calls stack
  /-- Records of scopes that were closed may be left over. -/
  blocks : m.blocks.filter (fun b => decide (b.depth ≤ stack.length)) = Scope.blocks stack

/-!
## Scopes and lines
-/

namespace Program

def PartAt (p : Program) (t : Nat) (part : HeaderPart) : Prop :=
  ∃ line pre mid post, p.lines[t]? = some line ∧ line.cells = pre ++ mid ++ post ∧ Plain mid ∧
    part.1 ∈ mid.map Cell.ref ∧ part.2 ∈ mid.map Cell.ref

structure LoopAt (p : Program) (l : Loop) : Prop where
  headed : p.HeadedBy l.header l.body.opening
  block : p.IsBlock l.body
  condition : ∀ part, l.condition = some part → p.PartAt l.header part
  step : ∀ part, l.step = some part → p.PartAt l.header part

def FunctionBody (p : Program) (e : Extent) : Prop :=
  ∃ d line c, p.lines[d]? = some line ∧ c ∈ line.cells ∧ c.token.kind = .keyword .define ∧
    p.blockAfter { line := d, token := c.ref } = .ok e

theorem FunctionBody.block {p : Program} {e : Extent} (body : p.FunctionBody e)
    (balanced : p.Balanced) :
    p.IsBlock e := by
  obtain ⟨d, line, c, found, member, kind, made⟩ := body
  obtain ⟨before, after, cells⟩ := List.append_of_mem member
  exact (headedBy_of_blockAfter balanced found cells (by rw [kind]; rfl) made).2

end Program

/-- Where a part of a line is reduced: at the start of a statement, after an `if` or `return`, or as
a part of a loop header. -/
inductive Slot (p : Program) (stack : List Scope) (t : Nat) :
    (index : Nat) → Purpose → (pre post : List Cell) → Prop where
  | statement (settled : Settled stack) (level : p.openAt (t + 1) = p.openAt t) :
      Slot p stack t t .statement [] []
  | giveBack {c : Cell} (settled : Settled stack) (level : p.openAt (t + 1) = p.openAt t)
      (kind : c.token.kind = .keyword .return) : Slot p stack t t .statement [c] []
  | branch {line : Line} {before after post : List Cell} {c : Cell} (settled : Settled stack)
      (found : p.lines[t]? = some line) (cells : line.cells = before ++ c :: after)
      (kind : c.token.kind = .keyword .if) (fresh : c.Fresh)
      (tail : post = [] ∧ p.openAt (t + 1) = p.openAt t ∨
        ∃ brace, post = [brace] ∧ brace.token.kind = .openBrace ∧ brace.Fresh) :
      Slot p stack t t .statement [c] post
  | header {l : Loop} {rest : List Scope} {purpose : Purpose} (top : stack = .loop l :: rest)
      (body : t = l.body.opening.line) (other : purpose ≠ .statement) :
      Slot p stack t l.header purpose [] []

namespace Slot

variable {p : Program} {stack : List Scope} {t index : Nat} {purpose : Purpose}
  {pre mid post : List Cell}

theorem firm (slot : Slot p stack t index purpose pre post) : Firm pre ∧ Firm post := by
  cases slot with
  | statement => simp [Firm]
  | giveBack _ _ kind => simp [Firm, kind, TokenKind.isPlain, TokenKind.isControl]
  | branch _ _ _ kind _ tail =>
      rcases tail with ⟨rfl, -⟩ | ⟨brace, rfl, kind', -⟩
      · simp [Firm, kind, TokenKind.isPlain, TokenKind.isControl]
      · simp [Firm, kind, kind', TokenKind.isPlain, TokenKind.isControl, TokenKind.openBrace,
          TokenKind.isScopeBracket]
  | header => simp [Firm]

theorem first_cases (slot : Slot p stack t index purpose pre post) (plain : Plain mid) {c : Cell}
    (first : (pre ++ mid ++ post).head? = some c) :
    c.token.kind.isPlain = true ∨ c.token.kind = .keyword .return ∨
      c.token.kind = .keyword .if := by
  cases slot with
  | statement => exact .inl (plain c (List.mem_of_head? (by simpa using first)))
  | giveBack _ _ kind =>
      cases first
      exact .inr (.inl kind)
  | branch _ _ _ kind _ _ =>
      cases first
      exact .inr (.inr kind)
  | header => exact .inl (plain c (List.mem_of_head? (by simpa using first)))

theorem noBrace (slot : Slot p stack t index purpose pre post) (plain : Plain mid) {c : Cell}
    (first : (pre ++ mid ++ post).head? = some c) : c.token.kind.isScopeBracket = false := by
  rcases slot.first_cases plain first with plain | kind | kind
  · exact isScopeBracket_of_isPlain plain
  · rw [kind]
    rfl
  · rw [kind]
    rfl

end Slot

/-- Plain cells are being reduced. -/
structure Work.Reduces (w : Work) (p : Program) (stack : List Scope) (t : Nat)
    (pre mid post : List Cell) : Prop where
  slot : Slot p stack t w.index w.purpose pre post
  cells : w.line.cells = pre ++ mid ++ post
  plain : Plain mid
  free : post ≠ [] → SystemFree mid
  sound : w.line.Sound
  unselected : w.selected = none

def Call.Awaited (c : Call) (p : Program) (stack : List Scope) (t : Nat) : Prop :=
  ∃ pre before name opening inner close after post,
    c.saved.Reduces p stack t pre (before ++ name :: opening :: (inner ++ close :: after)) post ∧
      c.nameRef = name.ref ∧ c.closeRef = close.ref

/-- The scopes are those around a line of the program, or of what is executed in their place. -/
def Nest (p : Program) : List Scope → Nat → Prop
  | [], t => p.openAt t = []
  | .block b :: rest, t => p.BraceAt b ∧ (p.openAt t).head? = some b.line ∧ Nest p rest b.line
  | .loop l :: rest, t =>
      p.LoopAt l ∧ t = l.body.opening.line ∧ l.scopes = rest.length ∧
        l.calls = (calls rest).length ∧ Settled rest ∧ Nest p rest t
  | .call c :: rest, t =>
      p.FunctionBody c.function.body ∧ (p.openAt t).head? = some c.function.body.opening.line ∧
        c.scopes = rest.length ∧ c.loops = (loops rest).length ∧
        ∃ t', c.Awaited p rest t' ∧ Nest p rest t'

namespace Nest

variable {p : Program} {stack inner rest : List Scope} {t t' : Nat} {l : Loop} {c : Call}

theorem congr (nest : Nest p stack t) (settled : Settled stack) (same : p.openAt t' = p.openAt t) :
    Nest p stack t' := by
  cases stack with
  | nil => exact same.trans nest
  | cons s rest =>
      cases s with
      | block b => exact ⟨nest.1, same ▸ nest.2.1, nest.2.2⟩
      | loop l => exact absurd rfl (settled l rest)
      | call c => exact ⟨nest.1, same ▸ nest.2.1, nest.2.2⟩

theorem eq_nil (nest : Nest p stack t) (balanced : p.Balanced) (past : p.lines[t]? = none) :
    stack = [] := by
  have none : p.openAt t = [] := balanced.openAt_of_length_le (List.getElem?_eq_none_iff.1 past)
  cases stack with
  | nil => rfl
  | cons s rest =>
      cases s with
      | block b =>
          have := nest.2.1
          simp [none] at this
      | loop l =>
          obtain ⟨line, -, -, found, -⟩ := nest.1.headed.brace
          rw [← nest.2.1, past] at found
          cases found
      | call c =>
          have := nest.2.1
          simp [none] at this

theorem calls_le (nest : Nest p stack t) (member : l ∈ loops stack) :
    l.calls ≤ (calls stack).length := by
  induction stack generalizing t with
  | nil => cases member
  | cons s rest ih =>
      cases s with
      | block b => exact ih nest.2.2 member
      | loop l' =>
          rcases List.mem_cons.1 member with rfl | member
          · exact Nat.le_of_eq nest.2.2.2.1
          · exact ih nest.2.2.2.2.2 member
      | call c =>
          obtain ⟨t', -, nest'⟩ := nest.2.2.2.2
          exact Nat.le_succ_of_le (ih nest' member)

theorem outer (nest : Nest p (inner ++ rest) t) (free : CallFree inner) : ∃ t', Nest p rest t' := by
  induction inner generalizing t with
  | nil => exact ⟨t, nest⟩
  | cons s inner ih =>
      cases s with
      | block b => exact ih nest.2.2 free
      | loop l => exact ih nest.2.2.2.2.2 free
      | call c => cases free

theorem own_loops (nest : Nest p (inner ++ rest) t) (free : CallFree inner)
    (member : l ∈ loops inner) :
    l.calls = (calls rest).length ∧ rest.length ≤ l.scopes := by
  obtain ⟨a, b, rfl⟩ := List.append_of_mem (mem_loops.1 member)
  obtain ⟨freeA, freeB⟩ := callFree_append.1 free
  rw [List.append_assoc] at nest
  obtain ⟨t', -, -, scopes, began, -⟩ := nest.outer freeA
  constructor
  · rw [began]
    change (calls (b ++ rest)).length = _
    rw [calls_append, show calls b = [] from freeB, List.nil_append]
  · rw [scopes]
    change _ ≤ (b ++ rest).length
    rw [List.length_append]
    omega

theorem innermost_loop (nest : Nest p stack t) {ls : List Loop} (top : loops stack = l :: ls)
    (own : l.calls = (calls stack).length) :
    ∃ inner rest, stack = inner ++ .loop l :: rest ∧ (∀ s ∈ inner, ∃ b, s = .block b) ∧
      Nest p (.loop l :: rest) l.body.opening.line := by
  induction stack generalizing t with
  | nil => cases top
  | cons s rest ih =>
      cases s with
      | block b =>
          obtain ⟨inner, rest', rfl, blocks, nest'⟩ := ih nest.2.2 top own
          refine ⟨.block b :: inner, rest', rfl, ?_, nest'⟩
          intro s hs
          rcases List.mem_cons.1 hs with rfl | hs
          · exact ⟨b, rfl⟩
          · exact blocks s hs
      | loop l' =>
          cases top
          refine ⟨[], rest, rfl, by simp, ?_⟩
          have here := nest.2.1
          rwa [here] at nest
      | call c =>
          obtain ⟨t', -, nest'⟩ := nest.2.2.2.2
          have le := nest'.calls_le (l := l) (by rw [loops_call] at top; simp [top])
          rw [own, calls_call, List.length_cons] at le
          omega

theorem innermost_call (nest : Nest p stack t) {cs : List Call} (top : calls stack = c :: cs) :
    ∃ inner rest t', stack = inner ++ .call c :: rest ∧ CallFree inner ∧
      Nest p (.call c :: rest) t' := by
  induction stack generalizing t with
  | nil => cases top
  | cons s rest ih =>
      cases s with
      | block b =>
          obtain ⟨inner, rest', t', rfl, free, nest'⟩ := ih nest.2.2 top
          exact ⟨.block b :: inner, rest', t', rfl, free, nest'⟩
      | loop l =>
          obtain ⟨inner, rest', t', rfl, free, nest'⟩ := ih nest.2.2.2.2.2 top
          exact ⟨.loop l :: inner, rest', t', rfl, free, nest'⟩
      | call c' =>
          cases top
          exact ⟨[], rest, t, rfl, rfl, nest⟩

theorem mem_openAt (nest : Nest p (inner ++ rest) t) (balanced : p.Balanced) (free : CallFree inner)
    {i : Nat} (top : (rest.head?.bind line?) = some i) : i ∈ p.openAt t := by
  induction inner generalizing t with
  | nil =>
      cases rest with
      | nil => cases top
      | cons s rest =>
          cases s with
          | block b =>
              cases top
              exact List.mem_of_head? nest.2.1
          | loop l => cases top
          | call c =>
              cases top
              exact List.mem_of_head? nest.2.1
  | cons s inner ih =>
      cases s with
      | block b =>
          have here := ih nest.2.2 free
          obtain ⟨newer, all⟩ := balanced.openAt_eq_append (List.mem_of_head? nest.2.1)
          rw [all]
          simp [here]
      | loop l => exact ih nest.2.2.2.2.2 free
      | call c => cases free

theorem opening_lt (nest : Nest p (inner ++ .loop l :: rest) t) (balanced : p.Balanced)
    (only : ∀ s ∈ inner, ∃ b, s = .block b) (filled : inner ≠ []) : l.body.opening.line < t := by
  induction inner generalizing t with
  | nil => exact absurd rfl filled
  | cons s inner ih =>
      obtain ⟨b, rfl⟩ := only s (by simp)
      have lower : b.line < t := balanced.lt_of_mem_openAt (List.mem_of_head? nest.2.1)
      cases inner with
      | nil => rwa [← nest.2.2.2.1]
      | cons s' inner =>
          have := ih nest.2.2 (fun s hs => only s (List.mem_cons_of_mem _ hs)) (by simp)
          omega

end Nest

end LineScript
