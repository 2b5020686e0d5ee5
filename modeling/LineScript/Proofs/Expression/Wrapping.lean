import Mathlib.Algebra.Group.Nat.Defs
import LineScript.Proofs.Expression.Precedence

/-!
# Parentheses around parentheses

Parentheses boost what they enclose when they are reached, and nothing takes a boost back when they
are dropped.  So an operand in `n` pairs of parentheses ends with `n` boosts on it, of which the
distance between the priorities of tokens that never act and of those that do absorbs 99.  Up to
that depth parentheses around a literal or a name have no effect; from the next one on the operand
is chosen where it stands, and the statement cannot be reduced.
-/

namespace LineScript

namespace Expr

def isAtom : Expr → Bool
  | .literal _ => true
  | .name _ => true
  | _ => false

/-- The expression in `n` pairs of parentheses. -/
def parenthesized (e : Expr) : Nat → Expr
  | 0 => e
  | n + 1 => .group (e.parenthesized n)

theorem kinds_parenthesized (e : Expr) (n : Nat) :
    (e.parenthesized n).kinds =
      List.replicate n (.bracket .paren .opening) ++ e.kinds ++
        List.replicate n (.bracket .paren .closing) := by
  induction n with
  | zero => simp [parenthesized]
  | succ n ih =>
      rw [parenthesized, kinds, ih, List.replicate_succ, List.replicate_succ']
      simp

end Expr

/-- Every token that never acts is below all tokens of the line that still have to. -/
def Line.Ordered (l : Line) : Prop :=
  ∀ c ∈ l.cells, ∀ d ∈ l.cells, c.token.kind.isInert = true → d.token.kind.isInert = false →
    c.token.priority < d.token.priority

instance (l : Line) : Decidable l.Ordered :=
  inferInstanceAs (Decidable (∀ c ∈ l.cells, ∀ d ∈ l.cells, _ → _ → _))

structure Wrapping where
  name : Cell
  assign : Cell
  /-- The parentheses that have boosted what they enclose, the innermost first. -/
  reached : List Cell
  /-- The other ones inside of them, the outermost first. -/
  unreached : List Cell
  operand : Cell
  closing : List Cell

namespace Wrapping

def cells (w : Wrapping) : List Cell :=
  w.name :: w.assign :: w.reached.reverse ++ w.unreached ++ w.operand :: w.closing

def weight (w : Wrapping) : Nat :=
  w.reached.length + 2 * w.unreached.length

def Stacked : List Cell → Prop
  | [] => True
  | o :: outer =>
      o.token.kind = .bracket .paren .opening ∧ o.token.expanded = true ∧
        o.token.priority = Priority.bracket + Priority.boost * outer.length ∧ Stacked outer

theorem Stacked.priority_le {reached : List Cell} (stacked : Stacked reached) :
    ∀ o ∈ reached,
      o.token.priority + Priority.boost ≤ Priority.bracket + Priority.boost * reached.length := by
  induction reached with
  | nil => simp
  | cons o outer ih =>
      obtain ⟨-, -, rank, rest⟩ := stacked
      intro c hc
      simp only [List.length_cons, Int.natCast_add, Priority.boost] at rank ih ⊢
      rcases List.mem_cons.1 hc with rfl | hc
      · omega
      · have := ih rest c hc
        omega

theorem Stacked.opening {reached : List Cell} (stacked : Stacked reached) :
    ∀ o ∈ reached, o.token.kind = .bracket .paren .opening ∧ 0 < o.token.priority := by
  induction reached with
  | nil => simp
  | cons o outer ih =>
      obtain ⟨kind, -, rank, rest⟩ := stacked
      intro c hc
      rcases List.mem_cons.1 hc with rfl | hc
      · refine ⟨kind, ?_⟩
        simp only [rank, Priority.bracket, Priority.boost]
        omega
      · exact ih rest c hc

/-- The priorities of a statement whose operand stood in `n` pairs of parentheses, of which some
have been dropped. -/
structure Ranked (w : Wrapping) (x : String) (kind : TokenKind) (n dropped : Nat) : Prop where
  name : w.name.token.kind = .name x
  nameRank : w.name.token.priority = Priority.inert
  assign : w.assign.token.kind = .operator .assign
  assignRank : w.assign.token.priority = Priority.assignment
  stacked : Stacked w.reached
  unreached : ∀ o ∈ w.unreached, o.token.kind = .bracket .paren .opening ∧
    o.token.expanded = false ∧
      o.token.priority = Priority.bracket + Priority.boost * w.reached.length
  operand : w.operand.token.kind = kind
  operandRank : w.operand.token.priority =
    Priority.inert + Priority.boost * (w.reached.length + dropped)
  closing : ∀ c ∈ w.closing, c.token.kind = .bracket .paren .closing ∧
    c.token.priority ≤ w.operand.token.priority
  paired : w.closing.length = w.reached.length + w.unreached.length
  total : w.reached.length + w.unreached.length + dropped = n
  /-- Parentheses are dropped only when all have been reached. -/
  order : w.unreached ≠ [] → dropped = 0

section
variable {w : Wrapping} {x : String} {kind : TokenKind} {n dropped : Nat}

theorem Ranked.cell_cases (ranked : w.Ranked x kind n dropped) (operand : kind.isOperand = true) :
    ∀ c ∈ w.cells,
      c.token.kind.isInert = true ∧ c.token.priority ≤ w.operand.token.priority ∨
        c.token.kind.isInert = false ∧ Priority.assignment ≤ c.token.priority := by
  intro c hc
  simp only [cells, List.cons_append, List.mem_cons, List.mem_append, List.mem_reverse,
    List.append_assoc] at hc
  rcases hc with rfl | rfl | hc | hc | rfl | hc
  · refine .inl ⟨by simp [ranked.name, TokenKind.isInert], ?_⟩
    simp only [ranked.nameRank, ranked.operandRank, Priority.boost]
    omega
  · exact .inr ⟨by simp [ranked.assign, TokenKind.isInert], by simp [ranked.assignRank]⟩
  · obtain ⟨bracket, positive⟩ := ranked.stacked.opening c hc
    refine .inr ⟨by simp [bracket, TokenKind.isInert], ?_⟩
    simp only [Priority.assignment]
    omega
  · obtain ⟨bracket, -, rank⟩ := ranked.unreached c hc
    refine .inr ⟨by simp [bracket, TokenKind.isInert], ?_⟩
    simp only [rank, Priority.assignment, Priority.bracket, Priority.boost]
    omega
  · refine .inl ⟨?_, Int.le_refl _⟩
    rw [ranked.operand]
    cases kind <;> simp_all [TokenKind.isOperand, TokenKind.isInert]
  · obtain ⟨bracket, low⟩ := ranked.closing c hc
    exact .inl ⟨by simp [bracket, TokenKind.isInert], low⟩

theorem Ranked.ordered_iff (ranked : w.Ranked x kind n dropped) (operand : kind.isOperand = true)
    {l : Line} (same : l.cells = w.cells) :
    l.Ordered ↔ w.operand.token.priority < Priority.assignment := by
  constructor
  · intro ordered
    rw [← ranked.assignRank]
    apply ordered w.operand (by simp [same, cells]) w.assign (by simp [same, cells])
    · rw [ranked.operand]
      cases kind <;> simp_all [TokenKind.isOperand, TokenKind.isInert]
    · simp [ranked.assign, TokenKind.isInert]
  · intro low c hc d hd inert acts
    rw [same] at hc hd
    rcases ranked.cell_cases operand c hc with ⟨-, below⟩ | ⟨acts', -⟩
    · rcases ranked.cell_cases operand d hd with ⟨inert', -⟩ | ⟨-, above⟩
      · simp [acts] at inert'
      · omega
    · simp [inert] at acts'

theorem Ranked.chosen (ranked : w.Ranked x kind n dropped) {outer after : List Cell} {o : Cell}
    (stacked : Stacked outer)
    (rank : o.token.priority = Priority.bracket + Priority.boost * outer.length)
    (right : ∀ c ∈ after, c.token.priority ≤ o.token.priority) :
    (⟨outer ++ [w.assign, w.name], o, after⟩ : Focus).Chosen := by
  refine ⟨?_, right⟩
  intro c hc
  rcases List.mem_append.1 hc with hc | hc
  · have := stacked.priority_le c hc
    simp only [rank, Priority.boost] at this ⊢
    omega
  · simp only [List.mem_cons, List.not_mem_nil, or_false] at hc
    simp only [rank, Priority.bracket, Priority.boost]
    rcases hc with rfl | rfl
    · rw [ranked.assignRank, Priority.assignment]
      omega
    · rw [ranked.nameRank, Priority.inert]
      omega

/-!
## Opening and dropping a pair
-/

theorem splitClose?_opens {opens : List Cell}
    (kinds : ∀ o ∈ opens, o.token.kind = .bracket .paren .opening) (k : Nat) (rest : List Cell) :
    Line.splitClose? .paren k (opens ++ rest) =
      (Line.splitClose? .paren (k + opens.length) rest).map fun (inner, close, after) =>
        (opens ++ inner, close, after) := by
  induction opens generalizing k with
  | nil => simp
  | cons o opens ih =>
      rw [List.cons_append, Tree.splitClose?_opening (kinds o (by simp)),
        ih (fun o ho => kinds o (by simp [ho])), List.length_cons,
        show k + 1 + opens.length = k + (opens.length + 1) by omega]
      cases Line.splitClose? .paren (k + (opens.length + 1)) rest <;> simp

theorem splitClose?_closes {closes : List Cell}
    (kinds : ∀ c ∈ closes, c.token.kind = .bracket .paren .closing) (k : Nat) (rest : List Cell) :
    Line.splitClose? .paren (k + closes.length) (closes ++ rest) =
      (Line.splitClose? .paren k rest).map fun (inner, close, after) =>
        (closes ++ inner, close, after) := by
  induction closes with
  | nil => simp
  | cons c closes ih =>
      rw [List.cons_append, List.length_cons, ← Nat.add_assoc,
        Tree.splitClose?_closing (kinds c (by simp)), ih (fun c hc => kinds c (by simp [hc]))]
      cases Line.splitClose? .paren k rest <;> simp

theorem splitClose?_operand {opens inner rest : List Cell} {c close : Cell}
    (hopens : ∀ o ∈ opens, o.token.kind = .bracket .paren .opening)
    (operand : c.token.kind.isOperand = true)
    (hinner : ∀ c ∈ inner, c.token.kind = .bracket .paren .closing)
    (hclose : close.token.kind = .bracket .paren .closing) (paired : inner.length = opens.length) :
    Line.splitClose? .paren 0 (opens ++ c :: (inner ++ close :: rest)) =
      some (opens ++ c :: inner, close, rest) := by
  have plain : ∀ s, c.token.kind ≠ .bracket .paren s := by
    intro s h
    simp [h, TokenKind.isOperand] at operand
  rw [splitClose?_opens hopens, Tree.splitClose?_skip plain, ← paired, splitClose?_closes hinner,
    Tree.splitClose?_here hclose]
  simp

def opened (w : Wrapping) (o : Cell) (unreached inner rest : List Cell) : Wrapping :=
  { w with
    reached := { o with token := { o.token with expanded := true } } :: w.reached
    unreached := unreached.map (Line.boostCell Priority.boost)
    operand := Line.boostCell Priority.boost w.operand
    closing := inner.map (Line.boostCell Priority.boost) ++ rest }

def unwrapped (w : Wrapping) (outer closing : List Cell) : Wrapping :=
  { w with reached := outer, closing }

theorem Ranked.opened {o close : Cell} {unreached inner rest : List Cell}
    (ranked : w.Ranked x kind n dropped) (hunreached : w.unreached = o :: unreached)
    (hclosing : w.closing = inner ++ close :: rest) :
    (w.opened o unreached inner (close :: rest)).Ranked x kind n 0 := by
  have none := ranked.order (by simp [hunreached])
  have opens := ranked.unreached
  have closes := ranked.closing
  rw [hunreached] at opens
  rw [hclosing] at closes
  obtain ⟨bracket, -, rank⟩ := opens o (by simp)
  refine
    { name := ranked.name
      nameRank := ranked.nameRank
      assign := ranked.assign
      assignRank := ranked.assignRank
      stacked := ⟨bracket, rfl, rank, ranked.stacked⟩
      unreached := ?_
      operand := ranked.operand
      operandRank := ?_
      closing := ?_
      paired := ?_
      total := ?_
      order := fun _ => rfl }
  · intro d hd
    obtain ⟨d, member, rfl⟩ := List.mem_map.1 hd
    obtain ⟨kind, fresh, rank⟩ := opens d (by simp [member])
    refine ⟨kind, fresh, ?_⟩
    simp only [Line.boostCell, Token.boost, rank, Wrapping.opened, List.length_cons,
      Int.natCast_add, Priority.boost]
    omega
  · simp only [Wrapping.opened, Line.boostCell, Token.boost, ranked.operandRank, none,
      List.length_cons, Int.natCast_add, Priority.boost]
    omega
  · intro d hd
    rcases List.mem_append.1 hd with hd | hd
    · obtain ⟨d, member, rfl⟩ := List.mem_map.1 hd
      obtain ⟨kind, low⟩ := closes d (by simp [member])
      exact ⟨kind, by simpa [Wrapping.opened, Line.boostCell, Token.boost] using low⟩
    · obtain ⟨kind, low⟩ := closes d (List.mem_append_right _ hd)
      refine ⟨kind, Int.le_trans low ?_⟩
      simp only [Wrapping.opened, Line.boostCell, Token.boost, Priority.boost]
      omega
  · have := ranked.paired
    simp only [hunreached, hclosing, List.length_append, List.length_cons] at this
    simp only [Wrapping.opened, List.length_append, List.length_map, List.length_cons]
    omega
  · have := ranked.total
    simp only [hunreached, List.length_cons] at this
    simp only [Wrapping.opened, List.length_map, List.length_cons]
    omega

theorem Ranked.unwrapped {o close : Cell} {outer closing : List Cell}
    (ranked : w.Ranked x kind n dropped) (done : w.unreached = [])
    (hreached : w.reached = o :: outer)
    (hclosing : w.closing = close :: closing) :
    (w.unwrapped outer closing).Ranked x kind n (dropped + 1) := by
  have stacked := ranked.stacked
  have rank := ranked.operandRank
  have paired := ranked.paired
  have total := ranked.total
  simp only [hreached, hclosing, done, List.length_cons, List.length_nil]
    at stacked rank paired total
  refine
    { name := ranked.name
      nameRank := ranked.nameRank
      assign := ranked.assign
      assignRank := ranked.assignRank
      stacked := stacked.2.2.2
      unreached := by simp [Wrapping.unwrapped, done]
      operand := ranked.operand
      operandRank := ?_
      closing := fun c hc => ranked.closing c (by rw [hclosing]; exact List.mem_cons_of_mem _ hc)
      paired := ?_
      total := ?_
      order := by simp [Wrapping.unwrapped, done] }
  · simp only [Wrapping.unwrapped, rank, Int.natCast_add, Priority.boost]
    omega
  · simp only [Wrapping.unwrapped, done, List.length_nil]
    omega
  · simp only [Wrapping.unwrapped, done, List.length_nil]
    omega

end

end Wrapping

theorem Action.outcome_act_inert {m : Machine} {f : Focus} {other : Cell}
    (inert : f.cell.token.kind.isInert = true) (beside : (f.next? <|> f.prev?) = some other) :
    (act f).outcome m = .error (.error other.token.stray) := by
  simp only [act, inert, if_true, beside]
  rfl

namespace Machine

structure Wraps (m : Machine) (w : Wrapping) (x : String) (kind : TokenKind) (n dropped : Nat) :
    Prop where
  ready : m.Ready
  cells : m.work.line.cells = w.cells
  ranked : w.Ranked x kind n dropped

section
variable {m : Machine} {w : Wrapping} {x : String} {kind : TokenKind} {n dropped : Nat}

theorem Wraps.head_noBrace (wraps : m.Wraps w x kind n dropped) :
    ∀ c, m.work.line.cells.head? = some c → c.token.kind.isScopeBracket = false := by
  intro c hc
  rw [wraps.cells] at hc
  obtain rfl : w.name = c := by simpa [Wrapping.cells] using hc
  simp [wraps.ranked.name, TokenKind.isScopeBracket]

/-- An unreached parenthesis is chosen before all reached ones and before the operand. -/
theorem Wraps.next_opened {o : Cell} {unreached : List Cell} (wraps : m.Wraps w x kind n dropped)
    (operand : kind.isOperand = true) (hunreached : w.unreached = o :: unreached) :
    ∃ w', m.next = .ok (m.onLine w'.cells 0) ∧ (m.onLine w'.cells 0).Wraps w' x kind n 0 ∧
      w'.weight < w.weight := by
  have ranked := wraps.ranked
  have opens := ranked.unreached
  rw [hunreached] at opens
  obtain ⟨bracket, fresh, rank⟩ := opens o (by simp)
  obtain ⟨inner, close, rest, hclosing, short⟩ : ∃ inner close rest,
      w.closing = inner ++ close :: rest ∧ inner.length = unreached.length := by
    have long : unreached.length < w.closing.length := by
      have := ranked.paired
      simp only [hunreached, List.length_cons] at this
      omega
    refine ⟨w.closing.take unreached.length, w.closing[unreached.length],
      w.closing.drop (unreached.length + 1), ?_, by simp; omega⟩
    rw [List.getElem_cons_drop, List.take_append_drop]
  have closes := ranked.closing
  rw [hclosing] at closes
  let f : Focus := ⟨w.reached ++ [w.assign, w.name], o,
    unreached ++ w.operand :: (inner ++ close :: rest)⟩
  have same : f.cells = m.work.line.cells := by
    simp [f, Focus.cells, wraps.cells, Wrapping.cells, hunreached, hclosing]
  have none := ranked.order (by simp [hunreached])
  have above : w.operand.token.priority ≤ o.token.priority := by
    simp only [ranked.operandRank, rank, none, Priority.inert, Priority.bracket, Priority.boost]
    omega
  have chosen : f.Chosen := by
    refine ranked.chosen ranked.stacked rank ?_
    intro c hc
    rcases List.mem_append.1 hc with hc | hc
    · simp only [rank, (opens c (by simp [hc])).2.2, Int.le_refl]
    · rcases List.mem_cons.1 hc with rfl | hc
      · exact above
      · exact Int.le_trans (closes c hc).2 above
  have split : Line.splitClose? .paren 0 f.after =
      some (unreached ++ w.operand :: inner, close, rest) :=
    Wrapping.splitClose?_operand (fun o ho => (opens o (by simp [ho])).1)
      (by rw [ranked.operand]; exact operand) (fun c hc => (closes c (by simp [hc])).1)
      (closes close (by simp)).1 short
  have acts := Action.outcome_act_opening wraps.ready.distinct same (b := .paren) bracket
    (by decide) fresh
    split
  refine ⟨w.opened o unreached inner (close :: rest), ?_, ?_, ?_⟩
  · rw [next_chosen wraps.ready same wraps.head_noBrace chosen, acts]
    simp [f, Wrapping.cells, Wrapping.opened]
  · refine ⟨wraps.ready.onLine ?_, rfl, ranked.opened hunreached hclosing⟩
    have refs : Cell.ref ∘ Line.boostCell Priority.boost = Cell.ref := rfl
    rw [Line.refs, wraps.cells]
    simp [Wrapping.cells, Wrapping.opened, hunreached, hclosing, refs, Line.boostCell]
  · simp only [Wrapping.weight, Wrapping.opened, hunreached, List.length_cons, List.length_map]
    omega

/-- The innermost parentheses are dropped while less than 100 have been. -/
theorem Wraps.next_unwrapped {o : Cell} {outer : List Cell} (wraps : m.Wraps w x kind n dropped)
    (operand : kind.isOperand = true) (done : w.unreached = []) (hreached : w.reached = o :: outer)
    (few : dropped ≤ Expr.maxDepth) :
    ∃ w', m.next = .ok (m.onLine w'.cells 0) ∧
      (m.onLine w'.cells 0).Wraps w' x kind n (dropped + 1) ∧ w'.weight < w.weight := by
  have ranked := wraps.ranked
  have stacked := ranked.stacked
  rw [hreached] at stacked
  obtain ⟨bracket, expanded, rank, stacked⟩ := stacked
  obtain ⟨close, closing, hclosing⟩ : ∃ close closing, w.closing = close :: closing := by
    apply List.exists_cons_of_length_pos
    rw [ranked.paired, hreached, List.length_cons]
    omega
  let f : Focus := ⟨outer ++ [w.assign, w.name], o, w.operand :: w.closing⟩
  have same : f.cells = m.work.line.cells := by
    simp [f, Focus.cells, wraps.cells, Wrapping.cells, done, hreached]
  have above : w.operand.token.priority ≤ o.token.priority := by
    simp only [ranked.operandRank, rank, hreached, List.length_cons, Int.natCast_add,
      Priority.inert, Priority.bracket, Priority.boost, Expr.maxDepth] at few ⊢
    omega
  have chosen : f.Chosen := by
    refine ranked.chosen stacked rank ?_
    intro c hc
    rcases List.mem_cons.1 hc with rfl | hc
    · exact above
    · exact Int.le_trans (ranked.closing c hc).2 above
  have isOperand : w.operand.token.kind.isOperand = true := by rw [ranked.operand]; exact operand
  have split : Line.splitClose? .paren 0 f.after = some ([w.operand], close, closing) := by
    have plain : ∀ c ∈ [w.operand], ∀ side, c.token.kind ≠ .bracket .paren side := by
      intro c hc side kind
      obtain rfl := List.mem_singleton.1 hc
      simp [kind, TokenKind.isOperand] at isOperand
    have := Tree.splitClose?_plain closing plain (ranked.closing close (by simp [hclosing])).1
    simpa [f, hclosing] using this
  have acts := Action.outcome_act_group wraps.ready.distinct same bracket expanded split isOperand
  refine ⟨w.unwrapped outer closing, ?_, ?_, ?_⟩
  · rw [next_chosen wraps.ready same wraps.head_noBrace chosen, acts]
    simp [f, Wrapping.cells, Wrapping.unwrapped, done]
  · refine ⟨wraps.ready.onLine ?_, rfl, ranked.unwrapped done hreached hclosing⟩
    rw [Line.refs, wraps.cells]
    simp [Wrapping.cells, Wrapping.unwrapped, done, hreached, hclosing]
  · simp [Wrapping.weight, Wrapping.unwrapped, hreached]

/-- From 100 dropped pairs on the operand outranks everything else and has a neighbour it does not
belong to. -/
theorem Wraps.next_stuck (wraps : m.Wraps w x kind n dropped) (operand : kind.isOperand = true)
    (done : w.unreached = []) (many : dropped = Expr.maxDepth + 1) :
    ∃ e, m.next = .error (.error e) ∧
      e.cause = .cannotReduce (if n = Expr.maxDepth + 1 then "=" else ")") := by
  have ranked := wraps.ranked
  let f : Focus := ⟨w.reached ++ [w.assign, w.name], w.operand, w.closing⟩
  have same : f.cells = m.work.line.cells := by
    simp [f, Focus.cells, wraps.cells, Wrapping.cells, done]
  have rank : w.operand.token.priority = Priority.boost * w.reached.length := by
    simp only [ranked.operandRank, many, Priority.inert, Priority.boost, Expr.maxDepth]
    omega
  have chosen : f.Chosen := by
    refine ⟨?_, fun c hc => (ranked.closing c hc).2⟩
    intro c hc
    simp only [f, rank, Priority.boost]
    rcases List.mem_append.1 hc with hc | hc
    · have := ranked.stacked.priority_le c hc
      simp only [Priority.boost, Priority.bracket] at this
      omega
    · simp only [List.mem_cons, List.not_mem_nil, or_false] at hc
      rcases hc with rfl | rfl
      · rw [ranked.assignRank, Priority.assignment]
        omega
      · rw [ranked.nameRank, Priority.inert]
        omega
  have inert : w.operand.token.kind.isInert = true := by
    rw [ranked.operand]
    cases kind <;> simp_all [TokenKind.isOperand, TokenKind.isInert]
  have total := ranked.total
  have paired := ranked.paired
  simp only [done, List.length_nil, many] at total paired
  rw [next_chosen wraps.ready same wraps.head_noBrace chosen]
  -- The neighbour is a closing parenthesis, or the assignment if the last pair has been dropped.
  cases hclosing : w.closing with
  | nil =>
      have bare : w.reached = [] := by
        apply List.eq_nil_of_length_eq_zero
        simp only [hclosing, List.length_nil] at paired
        omega
      have beside : (f.next? <|> f.prev?) = some w.assign := by
        simp [f, Focus.next?, Focus.prev?, hclosing, bare]
      rw [Action.outcome_act_inert inert beside]
      refine ⟨_, rfl, ?_⟩
      simp only [bare, List.length_nil] at total
      simp [Token.stray, Token.text, ranked.assign, TokenKind.text, Operator.symbol, ← total]
  | cons c closing =>
      have beside : (f.next? <|> f.prev?) = some c := by
        simp [f, Focus.next?, hclosing]
      rw [Action.outcome_act_inert inert beside]
      refine ⟨_, rfl, ?_⟩
      have more : n ≠ Expr.maxDepth + 1 := by
        simp only [hclosing, List.length_cons] at paired
        omega
      simp [Token.stray, Token.text, (ranked.closing c (by simp [hclosing])).1, TokenKind.text,
        more]

/-- Steps that change no variable, and keep the order of the tokens if there are few parentheses,
lead to a statement from which no more parentheses are dropped. -/
def Unwraps (m : Machine) (x : String) (kind : TokenKind) (n : Nat) : Prop :=
  ∃ k w dropped,
    m.Stays (fun m' => m'.symbols = m.symbols ∧ (n ≤ Expr.maxDepth → m'.work.line.Ordered)) k ∧
      m.after k = .ok (m.onLine w.cells 0) ∧ (m.onLine w.cells 0).Wraps w x kind n dropped ∧
      w.unreached = [] ∧
      (w.reached = [] ∧ dropped ≤ Expr.maxDepth ∨ dropped = Expr.maxDepth + 1)

theorem Wraps.unwraps (wraps : m.Wraps w x kind n dropped) (operand : kind.isOperand = true)
    (few : dropped ≤ Expr.maxDepth + 1) : m.Unwraps x kind n := by
  -- A step reaches a parenthesis or drops a pair, and both make the statement lighter.
  induction weight : w.weight using Nat.strongRecOn generalizing m w dropped with
  | ind size ih =>
      have ordered : n ≤ Expr.maxDepth → m.work.line.Ordered := by
        intro small
        rw [wraps.ranked.ordered_iff operand wraps.cells, wraps.ranked.operandRank]
        have := wraps.ranked.total
        simp only [Priority.inert, Priority.boost, Priority.assignment, Expr.maxDepth] at small ⊢
        omega
      have onward : ∀ w' dropped', m.next = .ok (m.onLine w'.cells 0) →
          (m.onLine w'.cells 0).Wraps w' x kind n dropped' → w'.weight < w.weight →
          dropped' ≤ Expr.maxDepth + 1 → m.Unwraps x kind n := by
        intro w' dropped' step wraps' smaller few'
        obtain ⟨k, w'', dropped'', stays, reached, result⟩ :=
          ih w'.weight (weight ▸ smaller) wraps' few' rfl
        rw [onLine_onLine] at reached result
        refine ⟨k + 1, w'', dropped'', stays_succ ⟨rfl, ordered⟩ step stays, ?_, result⟩
        rw [after_succ, step]
        exact reached
      cases hunreached : w.unreached with
      | cons o unreached =>
          obtain ⟨w', step, wraps', smaller⟩ := wraps.next_opened operand hunreached
          exact onward w' 0 step wraps' smaller (by omega)
      | nil =>
          have self : m.onLine w.cells 0 = m := by rw [← wraps.cells, onLine_self]
          have here : w.reached = [] ∧ dropped ≤ Expr.maxDepth ∨ dropped = Expr.maxDepth + 1 →
              m.Unwraps x kind n := by
            intro last
            exact ⟨0, w, dropped, stays_zero ⟨rfl, ordered⟩, by rw [self]; rfl, by rwa [self],
              hunreached, last⟩
          by_cases last : dropped = Expr.maxDepth + 1
          · exact here (.inr last)
          · cases hreached : w.reached with
            | nil => exact here (.inl ⟨hreached, by omega⟩)
            | cons o outer =>
                obtain ⟨w', step, wraps', smaller⟩ :=
                  wraps.next_unwrapped operand hunreached hreached (by omega)
                exact onward w' (dropped + 1) step wraps' smaller (by omega)

end

/-!
## The statement `x = t` with parentheses around `t`
-/

/-- A fresh statement wraps its operand in parentheses none of which has been reached. -/
theorem Assigns.exists_wraps {m : Machine} {x : String} {t : Expr} {n : Nat}
    (assigns : m.Assigns x (t.parenthesized n)) (atom : t.isAtom = true) :
    ∃ w kind, m.Wraps w x kind n 0 ∧ t.kinds = [kind] ∧ kind.isOperand = true := by
  obtain ⟨kind, kinds, operand⟩ : ∃ kind, t.kinds = [kind] ∧ kind.isOperand = true := by
    cases t <;> simp_all [Expr.isAtom, Expr.kinds, TokenKind.isOperand]
  obtain ⟨name, rest, hcells, hname, hrest⟩ := List.map_eq_cons_iff.1 assigns.kinds
  obtain ⟨assign, cells, rfl, hassign, hkinds⟩ := List.map_eq_cons_iff.1 hrest
  rw [Expr.kinds_parenthesized, kinds, List.append_assoc] at hkinds
  obtain ⟨opens, rest, rfl, hopens, hrest⟩ := List.map_eq_append_iff.1 hkinds
  obtain ⟨c, closes, rfl, hc, hcloses⟩ := List.map_eq_cons_iff.1 hrest
  have fresh := assigns.fresh
  rw [hcells] at fresh
  have rank : ∀ d ∈ name :: assign :: (opens ++ c :: closes),
      d.token.priority = d.token.kind.basePriority := fun d hd => (fresh d hd).1
  have opening : ∀ o ∈ opens, o.token.kind = .bracket .paren .opening := by
    intro o ho
    have := List.mem_map_of_mem (f := fun c : Cell => c.token.kind) ho
    rw [hopens] at this
    exact List.eq_of_mem_replicate this
  have closing : ∀ c ∈ closes, c.token.kind = .bracket .paren .closing := by
    intro c hc
    have := List.mem_map_of_mem (f := fun c : Cell => c.token.kind) hc
    rw [hcloses] at this
    exact List.eq_of_mem_replicate this
  have inert : c.token.priority = Priority.inert := by
    rw [rank c (by simp), hc]
    cases kind <;> simp_all [TokenKind.isOperand, TokenKind.basePriority]
  have opensLength : opens.length = n := by simpa using congrArg List.length hopens
  have closesLength : closes.length = n := by simpa using congrArg List.length hcloses
  let w : Wrapping := ⟨name, assign, [], opens, c, closes⟩
  refine ⟨w, kind, ⟨assigns.ready, by simp [w, hcells, Wrapping.cells], ?_⟩, kinds, operand⟩
  refine
    { name := hname
      nameRank := by rw [rank name (by simp), hname]; rfl
      assign := hassign
      assignRank := by rw [rank assign (by simp), hassign]; rfl
      stacked := trivial
      unreached := ?_
      operand := hc
      operandRank := by simp [w, inert]
      closing := ?_
      paired := by simp [w, opensLength, closesLength]
      total := by simp [w, opensLength]
      order := fun _ => rfl }
  · intro o ho
    refine ⟨opening o ho, (fresh o (by simp [show o ∈ opens from ho])).2, ?_⟩
    rw [rank o (by simp [show o ∈ opens from ho]), opening o ho]
    simp [w, TokenKind.basePriority]
  · intro d hd
    refine ⟨closing d hd, ?_⟩
    rw [rank d (by simp [show d ∈ closes from hd]), closing d hd]
    simp [w, inert, TokenKind.basePriority]

theorem Wraps.next_bare {m : Machine} {w : Wrapping} {x : String} {kind : TokenKind}
    {n dropped : Nat}
    {v : Value} (wraps : m.Wraps w x kind n dropped) (operand : kind.isOperand = true)
    (done : w.unreached = []) (bare : w.reached = []) (few : dropped ≤ Expr.maxDepth)
    (unbound : m.symbols.contains x = false) (value : m.valueOf w.operand.token = .ok v) :
    ∃ m', m.next = .ok m' ∧ m'.symbols = extended m.symbols x v := by
  have ranked := wraps.ranked
  have closing : w.closing = [] := by
    apply List.eq_nil_of_length_eq_zero
    simp [ranked.paired, done, bare]
  have step := next_assign (c := w.operand) wraps.ready
    (by simp [wraps.cells, Wrapping.cells, done, bare, closing]) ranked.name ranked.assign
    (by rw [ranked.nameRank, ranked.assignRank]; decide) ?_
    (by rw [ranked.operand]; exact operand) unbound
  · rw [value] at step
    exact step
  · simp only [ranked.operandRank, ranked.assignRank, bare, List.length_nil, Priority.inert,
      Priority.boost, Priority.assignment, Expr.maxDepth] at few ⊢
    omega

theorem valueOf_atom {m : Machine} {t : Expr} {token : Token} {v : Value}
    (kinds : t.kinds = [token.kind]) (atom : t.isAtom = true)
    (value : t.eval m.valueOfName = .ok v) : m.valueOf token = .ok v := by
  cases t with
  | literal u =>
      obtain rfl : u = v := by simpa [Expr.eval] using value
      simp only [Expr.kinds, List.cons.injEq, and_true] at kinds
      simp [valueOf, ← kinds]
  | name s =>
      simp only [Expr.kinds, List.cons.injEq, and_true] at kinds
      rw [Expr.eval] at value
      simp [valueOf, ← kinds, value]
  | _ => simp [Expr.isAtom] at atom

theorem parenthesized_binds {m : Machine} {x : String} {t : Expr} {n : Nat} {v : Value}
    (assigns : m.Assigns x (t.parenthesized n)) (atom : t.isAtom = true)
    (unbound : m.symbols.contains x = false) (value : t.eval m.valueOfName = .ok v)
    (few : n ≤ Expr.maxDepth) :
    ∃ k m', m.Stays (fun s => s.symbols = m.symbols ∧ s.work.line.Ordered) k ∧
      m.after (k + 1) = .ok m' ∧ m'.symbols = extended m.symbols x v := by
  obtain ⟨_, kind, wraps, kinds, operand⟩ := assigns.exists_wraps atom
  obtain ⟨k, w, dropped, stays, reached, wraps, done, last⟩ := wraps.unwraps operand (by omega)
  have total := wraps.ranked.total
  rcases last with ⟨bare, small⟩ | many
  · obtain ⟨m', step, declares⟩ := wraps.next_bare operand done bare small unbound
      (valueOf_atom (by rw [wraps.ranked.operand]; exact kinds) atom value)
    refine ⟨k, m', stays.mono fun s hs => ⟨hs.1, hs.2 few⟩, ?_, declares⟩
    rw [after_trans reached, after_one]
    exact step
  · omega

theorem parenthesized_stops {m : Machine} {x : String} {t : Expr} {n : Nat}
    (assigns : m.Assigns x (t.parenthesized n)) (atom : t.isAtom = true)
    (many : Expr.maxDepth < n) :
    ∃ k m' e, m.Stays (fun s => s.symbols = m.symbols) k ∧ m.after k = .ok m' ∧
      ¬ m'.work.line.Ordered ∧ m'.next = .error (.error e) ∧
      e.cause = .cannotReduce (if n = Expr.maxDepth + 1 then "=" else ")") := by
  obtain ⟨_, kind, wraps, -, operand⟩ := assigns.exists_wraps atom
  obtain ⟨k, w, dropped, stays, reached, wraps, done, last⟩ := wraps.unwraps operand (by omega)
  have total := wraps.ranked.total
  rcases last with ⟨bare, small⟩ | last
  · simp only [bare, done, List.length_nil] at total
    omega
  · obtain ⟨e, failed, cause⟩ := wraps.next_stuck operand done last
    refine ⟨k, _, e, stays.mono fun s hs => hs.1, reached, ?_, failed, cause⟩
    rw [wraps.ranked.ordered_iff operand wraps.cells, wraps.ranked.operandRank, last]
    simp only [Priority.inert, Priority.boost, Priority.assignment, Expr.maxDepth]
    omega

/-- Parentheses around a literal or a bound name are transparent exactly up to a depth of 99: the
statement then binds its name to the value, and no token that never acts gets above one that still
has to.  With more parentheses the operand gets above the assignment, and the statement stops with
its neighbour, as long as priorities fit 32 bits. -/
theorem parenthesized_binds_iff {m : Machine} {x : String} {t : Expr} {n : Nat} {v : Value}
    (assigns : m.Assigns x (t.parenthesized n)) (atom : t.isAtom = true)
    (unbound : m.symbols.contains x = false) (value : t.eval m.valueOfName = .ok v) :
    (m.Binds x v ↔ n ≤ 99) ∧
      (n ≤ 99 → ∃ k m',
        m.Stays (fun s => s.symbols = m.symbols ∧ s.work.line.Ordered) k ∧
          m.after (k + 1) = .ok m' ∧ m'.symbols = extended m.symbols x v) ∧
      (99 < n → n < 2 ^ 24 → ∃ k m' e,
        m.Stays (fun s => s.symbols = m.symbols) k ∧ m.after k = .ok m' ∧
          ¬ m'.work.line.Ordered ∧ m'.next = .error (.error e) ∧
          e.cause = .cannotReduce (if n = 100 then "=" else ")")) := by
  have binds := parenthesized_binds assigns atom unbound value
  have stops := parenthesized_stops assigns atom
  refine ⟨⟨fun bound => ?_, fun few => ?_⟩, binds, fun many _ => stops many⟩
  · rcases Nat.lt_or_ge 99 n with many | few
    · obtain ⟨k, m', e, stays, reached, -, failed, -⟩ := stops many
      exact absurd ⟨k, m', e, reached, failed, stays.keeps⟩ bound.not_fails
    · exact few
  · obtain ⟨k, m', stays, reached, declares⟩ := binds few
    exact ⟨k + 1, m', reached, declares, fun j hj =>
      (stays.mono fun s hs => hs.1).keeps j (by omega)⟩

def onWrapped (n : Nat) : Machine :=
  onKinds symbolsWithY (.name "x" :: .operator .assign :: ((Expr.name "y").parenthesized n).kinds)

theorem parenthesized_binds_iff_deepest :
    (onWrapped 99).Assigns "x" ((Expr.name "y").parenthesized 99) ∧
      (onWrapped 99).Binds "x" (.int 1) := by
  have assigns : (onWrapped 99).Assigns "x" ((Expr.name "y").parenthesized 99) :=
    assigns_onKinds _ _ _
  exact ⟨assigns, (parenthesized_binds_iff assigns rfl (by decide) rfl).1.2 (by decide)⟩

/-- One more pair of parentheses around a bound name, and the statement fails. -/
theorem hundred_parentheses_fail :
    (onWrapped 100).Assigns "x" ((Expr.name "y").parenthesized 100) ∧
      (onWrapped 100).symbols.contains "x" = false ∧
      (Expr.name "y").eval (onWrapped 100).valueOfName = .ok (.int 1) ∧
      ¬ (onWrapped 100).Binds "x" (.int 1) ∧ (onWrapped 100).Fails := by
  have assigns : (onWrapped 100).Assigns "x" ((Expr.name "y").parenthesized 100) :=
    assigns_onKinds _ _ _
  have fails : (onWrapped 100).Fails := by
    obtain ⟨k, m', e, stays, reached, -, failed, -⟩ := parenthesized_stops assigns rfl (by decide)
    exact ⟨k, m', e, reached, failed, stays.keeps⟩
  exact ⟨assigns, by decide, rfl, fun binds => binds.not_fails fails, fails⟩

end Machine

end LineScript
