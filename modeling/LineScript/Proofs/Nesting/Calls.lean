import LineScript.Proofs.Nesting.Invariant

/-!
# Calls of nested machines

A call puts its scope on top of all others and keeps the line of the caller; a return closes all
scopes down to that of the call and puts the value of the call in its place in that line.
-/

namespace LineScript

open Scope

structure CallSite where
  before : List Cell
  name : Cell
  opening : Cell
  args : List Cell
  close : Cell
  after : List Cell
  named : ∃ text, name.token.kind = .name text
  paren : opening.token.kind = .bracket .call .opening
  matched : Line.splitClose? .call 0 (args ++ close :: after) = some (args, close, after)

namespace CallSite

def cells (site : CallSite) : List Cell :=
  site.before ++ site.name :: site.opening :: (site.args ++ site.close :: site.after)

def answered (site : CallSite) (value : Value) (id : Nat) : List Cell :=
  site.before ++ { site.name with token := .literal value id site.name.token.line } :: site.after

end CallSite

/-- What is left of the line of the caller when the value of a call has come back. -/
def Call.Answered (c : Call) (value : Value) (id : Nat) (w : Work) : Prop :=
  ∀ site : CallSite, c.saved.line.cells = site.cells → c.nameRef = site.name.ref →
    c.closeRef = site.close.ref →
    w = { c.saved with line := c.saved.line.withCells (site.answered value id) }

namespace Machine

variable {m m' : Machine} {p : Program} {stack inner rest : List Scope} {t : Nat} {c : Call}

structure Enters (m : Machine) (p : Program) (stack : List Scope) (c : Call)
    (m' : Machine) : Prop where
  nested : m'.Nested p (.call c :: stack)
  saved : c.saved = m.work
  site : ∃ site : CallSite, m.work.line.cells = site.cells ∧ c.nameRef = site.name.ref ∧
    c.closeRef = site.close.ref
  under : m.symbols.Under m'.symbols
  keeps : ∀ n, Symbols.Keeps n m.symbols m'.symbols

structure Returns (m : Machine) (p : Program) (stack : List Scope) (c : Call) (rest : List Scope)
    (m' : Machine) : Prop where
  stack : ∃ inner, stack = inner ++ .call c :: rest ∧ CallFree inner
  nested : m'.Nested p rest
  symbols : m'.symbols = m.symbols.unwind rest.length
  answered : ∃ value id, value.type = c.function.returns ∧ c.Answered value id m'.work

/-!
## Returning
-/

theorem dropWhile_ref {cells : List Cell} {close : Cell} (after : List Cell)
    (other : ∀ d ∈ cells, d.ref ≠ close.ref) :
    ((cells ++ close :: after).dropWhile fun d => d.ref ≠ close.ref).drop 1 = after := by
  induction cells with
  | nil => simp
  | cons d cells ih =>
      rw [List.cons_append, List.dropWhile_cons, if_pos (by simp [other d])]
      exact ih fun e he => other e (List.mem_cons_of_mem _ he)

theorem answer_eq {line : Line} (sound : line.Sound) {before args after : List Cell}
    {name opening close : Cell}
    (cells : line.cells = before ++ name :: opening :: (args ++ close :: after)) {f : Focus}
    (focus : line.focus name.ref = .ok f) :
    f.before.reverse = before ∧ f.cell = name ∧
      (f.after.dropWhile fun d => d.ref ≠ close.ref).drop 1 = after := by
  rw [Line.focus_eq sound.distinct before cells] at focus
  cases focus
  refine ⟨by simp, rfl, ?_⟩
  have distinct := sound.distinct
  rw [Line.refs, cells] at distinct
  have other : ∀ d ∈ opening :: args, d.ref ≠ close.ref := by
    simp only [List.map_append, List.map_cons, List.nodup_append, List.nodup_cons,
      List.mem_map] at distinct
    intro d hd same
    rcases List.mem_cons.1 hd with rfl | hd
    · exact distinct.2.1.2.1 (by simp [same])
    · exact distinct.2.1.2.2.2.2 d.ref ⟨d, hd, rfl⟩ close.ref (by simp) same
  exact dropWhile_ref after other

theorem reduces_answered {w : Work} {pre left args right post : List Cell}
    {name opening close : Cell}
    (reduces : w.Reduces p stack t pre (left ++ name :: opening :: (args ++ close :: right)) post)
    (value : Value) (id : Nat) :
    ({ w with line := w.line.withCells ((pre ++ left) ++
      { name with token := .literal value id name.token.line } ::
        (right ++ post)) } : Work).Reduces p stack t pre
      (left ++ { name with token := .literal value id name.token.line } :: right) post := by
  have plain := reduces.plain
  simp only [plain_append, plain_cons] at plain
  refine ⟨reduces.slot, by simp [Line.withCells], ?_, ?_, ?_, reduces.unselected⟩
  · simp only [plain_append, plain_cons]
    exact ⟨plain.1, rfl, plain.2.2.2.2.2⟩
  · intro more
    have none := reduces.free more
    simp only [systemFree_append, systemFree_cons] at none ⊢
    exact ⟨none.1, by simp [Token.literal, Token.new], none.2.2.2.2.2⟩
  · refine reduces.sound.withCells ?_
    rw [Line.refs, reduces.cells]
    simp only [List.map_append, List.map_cons, List.append_assoc, List.cons_append]
    refine (List.Sublist.refl _).append ((List.Sublist.refl _).append (.cons_cons _ (.cons _ ?_)))
    exact (List.sublist_cons_self _ _).trans (List.sublist_append_right _ _)

theorem endCall_returns {value : Value} {n : Nat} (stands : m.Stands p (inner ++ .call c :: rest))
    (running : m.finished = false) (free : CallFree inner) (nest : Nest p (.call c :: rest) t)
    (ran : (Action.endCall value n).outcome m = .ok ((), m')) :
    m.Returns p (inner ++ .call c :: rest) c rest m' := by
  obtain ⟨-, -, scopes, loops, t', awaited, below⟩ := nest
  have own : m.calls = c :: Scope.calls rest := by
    rw [stands.mirrors.calls, calls_append, free]
    rfl
  obtain ⟨m₀, m₁, same, ran₁⟩ := Action.outcome_bind_ok ran
  cases same
  simp only [own, Action.outcome_bind, Action.outcome_modify, Except.bind_ok] at ran₁
  split at ran₁
  · cases ran₁
  · rename_i typed
    obtain ⟨f, focus⟩ := Action.focus_of_returned ran₁
    obtain rfl := (Action.settles_returned focus c.closeRef value).of_ok ran₁
    obtain ⟨pre, left, name, opening, args, close, right, post, reduces, refN, refC⟩ := awaited
    have cells : c.saved.line.cells =
        (pre ++ left) ++ name :: opening :: (args ++ close :: (right ++ post)) := by
      rw [reduces.cells]
      simp
    obtain ⟨front, cell, back⟩ := answer_eq reduces.sound cells (refN ▸ focus)
    refine ⟨⟨inner, rfl, free⟩, ⟨⟨stands.program, stands.functions, ?_⟩, .inr ⟨t', below, ?_⟩⟩, ?_,
      value, m.nextId, ?_, ?_⟩
    · have split : inner ++ .call c :: rest = (inner ++ [.call c]) ++ rest := by simp
      refine (split ▸ stands.mirrors).shrink ?_ ?_ rfl rfl
      · simp [stands.mirrors.depth, scopes]
        omega
      · show m.loops.drop (m.loops.length - c.loops) = _
        rw [stands.mirrors.loops, loops, loops_append, loops_call]
        simp
    · have after : List.drop 1 (f.after.dropWhile fun d => d.ref ≠ c.closeRef) = right ++ post := by
        rw [refC]
        exact back
      rw [front, cell, after]
      exact .reducing running (reduces_answered reduces value m.nextId)
    · rw [← scopes]
      rfl
    · simpa using typed
    · intro site cells' refN' refC'
      obtain ⟨front, cell, back⟩ := answer_eq reduces.sound cells' (refN' ▸ focus)
      rw [← refC'] at back
      show ({ c.saved with line := c.saved.line.withCells _ } : Work) = _
      rw [front, cell, back]
      rfl

theorem giveBack_returns {f : Focus} (stands : m.Stands p stack) (running : m.finished = false)
    (nest : Nest p stack t) (ran : (Action.giveBack f).outcome m = .ok ((), m')) :
    ∃ c rest, m.Returns p stack c rest m' := by
  obtain ⟨value, ended⟩ : ∃ value, (Action.endCall value f.cell.token.line).outcome m =
    .ok ((), m') := by
    unfold Action.giveBack at ran
    split at ran
    · exact ⟨.null, ran⟩
    · obtain ⟨value, m₁, hv, ran₁⟩ := Action.outcome_bind_ok ran
      obtain ⟨-, rfl⟩ := Action.valueOf_ok hv
      exact ⟨value, ran₁⟩
    · cases ran
  cases own : m.calls with
  | nil => simp [Action.endCall, Action.outcome_bind, own] at ended
  | cons c cs =>
      obtain ⟨inner, rest, t', rfl, free, below⟩ := nest.innermost_call
        (stands.mirrors.calls.symm.trans own)
      exact ⟨c, rest, endCall_returns stands running free below ended⟩

/-!
## Calling
-/

theorem get?_of_callee {name : String} {function : Function}
    (found : m.callee name = .ok function) :
    m.functions.get? function.name = some function := by
  have named {target : String} (same : m.functions.get? target = some function) :
      m.functions.get? function.name = some function := by
    have own := List.find?_some (p := fun f : Function => f.name = target) same
    rwa [of_decide_eq_true own]
  unfold callee at found
  -- The name is that of a reference to a function, or the function's own.
  split at found
  all_goals
    dsimp only at found
    split at found
    · rename_i same
      cases found
      exact named same
    · cases found

theorem callee_mem {name : String} {function : Function} (found : m.callee name = .ok function) :
    function ∈ m.functions.all :=
  List.mem_of_find?_eq_some (get?_of_callee found)

theorem bindParameters_ok {n : Nat} {params : List (Parameter × Value)}
    (ran : (Action.bindParameters n params).outcome m = .ok ((), m')) :
    m' = { m with symbols := m'.symbols } ∧ m.symbols.Grows m'.symbols := by
  induction params generalizing m with
  | nil =>
      cases ran
      exact ⟨rfl, .refl _⟩
  | cons param params ih =>
      obtain ⟨m₀, m₁, same, ran₁⟩ := Action.outcome_bind_ok ran
      cases same
      obtain ⟨symbols, m₂, hs, ran₂⟩ := Action.outcome_bind_ok ran₁
      obtain ⟨added, rfl⟩ := Action.ofCause_ok hs
      obtain ⟨⟨⟩, m₃, set, ran₃⟩ := Action.outcome_bind_ok ran₂
      cases set
      obtain ⟨rest, grows⟩ := ih ran₃
      exact ⟨rest, (Symbols.grows_add added).trans grows⟩

theorem beginCall_enters (balanced : p.Balanced) (structured : p.BlockStructured) {f : Focus}
    {pre left right post args more : List Cell} {close : Cell} (stands : m.Stands p stack)
    (running : m.finished = false) (nest : Nest p stack t)
    (reduces : m.work.Reduces p stack t pre (left ++ f.cell :: right) post)
    (inside : f.Inside pre left right post) (whole : f.cells = m.work.line.cells)
    (kind : f.cell.token.kind = .bracket .call .opening)
    (matched : Line.splitClose? .call 0 f.after = some (args, close, more))
    (ran : (Action.beginCall f args close).outcome m = .ok ((), m')) :
    ∃ c, m.Enters p stack c m' := by
  unfold Action.beginCall at ran
  split at ran
  · rename_i nameRef name called
    obtain ⟨d, prev, named⟩ := Option.bind_eq_some_iff.1 called
    obtain ⟨text, word, same⟩ := Option.map_eq_some_iff.1 named
    cases same
    have kindD : d.token.kind = .name name := by
      cases h : d.token.kind with
      | name text => simpa [h, TokenKind.name?] using word
      | _ => simp [h, TokenKind.name?] at word
    obtain ⟨left', rfl⟩ := inside.prev prev (by rw [kindD]; rfl)
    obtain ⟨right', rfl, onMore⟩ := Action.splitClose?_inside (by decide) inside matched
    have onAfter : f.after = args ++ close :: more := (Line.splitClose?_append matched).symm
    let site : CallSite :=
      { before := pre ++ left', name := d, opening := f.cell, args, close, after := more
        named := ⟨name, kindD⟩, paren := kind, matched := by rw [← onAfter]; exact matched }
    have cells : m.work.line.cells = site.cells := by
      rw [← whole, inside.cells, CallSite.cells]
      simp [site, onMore]
    obtain ⟨m₀, m₁, same, ran₁⟩ := Action.outcome_bind_ok ran
    cases same
    obtain ⟨values, m₂, hvalues, ran₂⟩ := Action.outcome_bind_ok ran₁
    obtain ⟨-, rfl⟩ := Action.ofExcept_ok hvalues
    obtain ⟨function, m₃, hfunction, ran₃⟩ := Action.outcome_bind_ok ran₂
    obtain ⟨found, rfl⟩ := Action.ofCause_ok hfunction
    obtain ⟨⟨⟩, m₄, hchecked, ran₄⟩ := Action.outcome_bind_ok ran₃
    obtain ⟨-, rfl⟩ := Action.ofCause_ok hchecked
    obtain ⟨⟨⟩, m₅, hcall, ran₅⟩ := Action.outcome_bind_ok ran₄
    cases hcall
    obtain ⟨⟨⟩, m₆, hscope, ran₆⟩ := Action.outcome_bind_ok ran₅
    cases hscope
    obtain ⟨⟨⟩, m₇, hparams, ran₇⟩ := Action.outcome_bind_ok ran₆
    obtain ⟨rest, grows⟩ := bindParameters_ok hparams
    have body := stands.functions function (callee_mem found)
    -- The machine in the scope of the parameters, before it goes on with the body.
    let c : Call :=
      { function, origin := m₄.work.index, nameRef := d.ref, closeRef := close.ref
        scopes := m₄.symbols.depth, loops := m₄.loops.length, saved := m₄.work }
    have begun : m₇.Stands p (.call c :: stack) := by
      rw [rest]
      exact ⟨stands.program, stands.functions,
        stands.mirrors.openCall c (grows.depth.trans (Symbols.depth_push _)) rfl rfl rfl⟩
    have inner : Nest p (.call c :: stack) (function.body.opening.line + 1) := by
      refine ⟨body, ?_, stands.mirrors.depth, ?_, t, ?_, nest⟩
      · rw [(body.block balanced).brace.openAt_succ balanced]
        rfl
      · rw [← stands.mirrors.loops]
      · refine ⟨pre, left', d, f.cell, args, close, right', post, ?_, rfl, rfl⟩
        simpa using reduces
    simp only [Action.outcome_bind, Action.outcome_get, Action.outcome_emit, Except.bind_ok,
      Action.outcome_ofFault, begun.program,
        (body.block balanced).brace.following balanced.loaded, orFault,
      Except.mapError_ok_eq, Except.map_ok_eq] at ran₇
    obtain ⟨nested, symbols⟩ := begun.toFirst balanced (by rw [rest]; exact running) structured
      (settled_call c stack) inner ran₇
    refine ⟨c, nested, rfl, ⟨site, cells, rfl, rfl⟩, ?_, ?_⟩
    · rw [symbols]
      exact (Symbols.under_push _).grows grows
    · intro n
      rw [symbols]
      exact (Symbols.keeps_push n _).trans (grows.keeps n)
  · cases ran

end Machine

end LineScript
