import LineScript.Proofs.Nesting.Forms
import LineScript.Proofs.Scopes

/-!
# Reducing a part of a line

An expression is reduced between cells that it never consumes: the keyword before it and the brace
after it.  `Machine.Rewrites` says what such a reduction does, whatever the expression: it changes
the plain cells in between, adds or updates variables, and prints.  A built-in function without a
result is the exception; it clears the line.
-/

namespace LineScript

theorem TokenKind.isPlain_of_isOperand {k : TokenKind} (operand : k.isOperand = true) :
    k.isPlain = true := by
  cases k with
  | literal _ => rfl
  | name _ => rfl
  | _ => cases operand

/-- Cells that no expression consumes. -/
def Firm (cells : List Cell) : Prop :=
  ∀ c ∈ cells, c.token.kind.isPlain = false

theorem TokenKind.isPlain_of_isInert {k : TokenKind} (inert : k.isInert = true) :
    k.isPlain = true := by
  cases k with
  | bracket b side =>
      cases b with
      | scope => cases side <;> cases inert
      | paren => rfl
      | call => rfl
  | literal _ => rfl
  | name _ => rfl
  | signal _ => rfl
  | comma => rfl
  | semicolon => rfl
  | _ => cases inert

theorem Focus.cases_parts {f : Focus} {pre mid post : List Cell}
    (cells : f.cells = pre ++ mid ++ post) :
    (∃ more, pre = f.before.reverse ++ f.cell :: more ∧ f.after = more ++ mid ++ post) ∨
      (∃ left right, mid = left ++ f.cell :: right ∧ f.before = left.reverse ++ pre.reverse ∧
        f.after = right ++ post) ∨
      ∃ more, post = more ++ f.cell :: f.after ∧ f.before.reverse = pre ++ mid ++ more := by
  rw [Focus.cells] at cells
  rcases List.append_eq_append_iff.1 cells with ⟨x, front, back⟩ | ⟨x, front, back⟩
  · cases x with
    | nil => exact .inr (.inr ⟨[], by simpa using back.symm, by simpa using front.symm⟩)
    | cons d x =>
        obtain ⟨rfl, after⟩ := List.cons.inj back
        rcases List.append_eq_append_iff.1 front with ⟨y, front', back'⟩ | ⟨y, front', back'⟩
        · exact .inr (.inl ⟨y, x, back', by simp [← List.reverse_append, ← front'], after⟩)
        · cases y with
          | nil => exact .inr (.inl ⟨[], x, by simpa using back'.symm, by simp [front'], after⟩)
          | cons e y =>
              obtain ⟨rfl, rest⟩ := List.cons.inj back'
              exact .inl ⟨y, front', by rw [after, rest]; rfl⟩
  · exact .inr (.inr ⟨x, back, by simpa using front⟩)

structure Focus.Inside (f : Focus) (pre left right post : List Cell) : Prop where
  before : f.before = left.reverse ++ pre.reverse
  after : f.after = right ++ post
  plain : Plain (left ++ f.cell :: right)
  firmPre : Firm pre
  firmPost : Firm post

namespace Focus.Inside

variable {f : Focus} {pre left right post : List Cell} {c : Cell}

theorem cells (inside : f.Inside pre left right post) :
    f.cells = pre ++ (left ++ f.cell :: right) ++ post := by
  simp [Focus.cells, inside.before, inside.after]

theorem prev (inside : f.Inside pre left right post) (here : f.prev? = some c)
    (plain : c.token.kind.isPlain = true) : ∃ rest, left = rest ++ [c] := by
  rw [Focus.prev?, inside.before] at here
  rcases List.eq_nil_or_concat left with rfl | ⟨rest, d, rfl⟩
  · have member : c ∈ pre := List.mem_reverse.1 (List.mem_of_head? (by simpa using here))
    rw [inside.firmPre c member] at plain
    cases plain
  · rw [List.concat_eq_append, List.reverse_append] at here
    cases here
    exact ⟨rest, List.concat_eq_append⟩

theorem next (inside : f.Inside pre left right post) (here : f.next? = some c)
    (plain : c.token.kind.isPlain = true) : ∃ rest, right = c :: rest := by
  rw [Focus.next?, inside.after] at here
  cases right with
  | nil =>
      rw [inside.firmPost c (List.mem_of_head? (by simpa using here))] at plain
      cases plain
  | cons d rest =>
      cases here
      exact ⟨rest, rfl⟩

end Focus.Inside

structure Machine.Rewrites (m : Machine) (pre old post : List Cell) (m' : Machine) : Prop where
  rest : m' = { m with
    work := { m.work with line := m'.work.line }
    symbols := m'.symbols
    nextId := m'.nextId
    sink := m'.sink }
  symbols : m.symbols.Grows m'.symbols
  sound : m.work.line.Sound → m'.work.line.Sound
  cells : (∃ mid, m'.work.line.cells = pre ++ mid ++ post ∧ Plain mid ∧
      (SystemFree old → SystemFree mid)) ∨ m'.work.line.cells = [] ∧ ¬ SystemFree old

namespace Action

variable {m m' : Machine} {f : Focus} {pre left right post : List Cell}

/-- Cells around the focus are replaced by others with references from among theirs. -/
theorem rewrites_around (inside : f.Inside pre left right post)
    (whole : f.cells = m.work.line.cells) {a usedA usedB b : List Cell}
    (onLeft : left = a ++ usedA) (onRight : right = usedB ++ b) (new : List Cell)
    (plain : Plain new) (free : SystemFree (usedA ++ f.cell :: usedB) → SystemFree new)
    (fewer : (new.map Cell.ref).Sublist ((usedA ++ f.cell :: usedB).map Cell.ref))
    {symbols : Symbols} (grows : m.symbols.Grows symbols) (nextId : Nat) (sink : Sink)
    {cells : List Cell} (made : cells = pre ++ (a ++ new ++ b) ++ post) :
    m.Rewrites pre (left ++ f.cell :: right) post { m with
      work := { m.work with line := m.work.line.withCells cells }, symbols, nextId, sink } where
  rest := rfl
  symbols := grows
  sound := by
    intro sound
    refine sound.withCells ?_
    have old : m.work.line.cells = pre ++ (a ++ (usedA ++ f.cell :: usedB) ++ b) ++ post := by
      rw [← whole, inside.cells, onLeft, onRight]
      simp
    rw [made, Line.refs, old]
    simp only [List.map_append] at fewer ⊢
    exact ((List.Sublist.refl _).append (((List.Sublist.refl _).append fewer).append
      (List.Sublist.refl _))).append (List.Sublist.refl _)
  cells := by
    refine .inl ⟨a ++ new ++ b, made, ?_, ?_⟩
    · have all := inside.plain
      simp only [onLeft, onRight, plain_append, plain_cons] at all ⊢
      exact ⟨⟨all.1.1, plain⟩, all.2.2.2⟩
    · intro none
      simp only [onLeft, onRight, systemFree_append, systemFree_cons] at none free ⊢
      exact ⟨⟨none.1.1, free ⟨none.1.2, none.2.1, none.2.2.1⟩⟩, none.2.2.2⟩

theorem rewrites_result (inside : f.Inside pre left right post)
    (whole : f.cells = m.work.line.cells) {a usedA usedB b : List Cell} (onLeft : left = a ++ usedA)
    (onRight : right = usedB ++ b) (value : Value) (id : Nat) {symbols : Symbols}
    (grows : m.symbols.Grows symbols) (nextId : Nat) (sink : Sink) {cells : List Cell}
    (made : cells = pre ++ (a ++ [f.cell.answered value id] ++ b) ++ post) :
    m.Rewrites pre (left ++ f.cell :: right) post { m with
      work := { m.work with line := m.work.line.withCells cells }, symbols, nextId, sink } := by
  refine rewrites_around inside whole onLeft onRight _ ?_ ?_ ?_ grows nextId sink made
  · simp [Cell.answered, Token.literal, Token.new, TokenKind.isPlain, TokenKind.isControl,
      TokenKind.isScopeBracket]
  · simp [Cell.answered, Token.literal, Token.new]
  · simp [Cell.answered]

theorem applyBinary_rewrites {op : Operator} (inside : f.Inside pre left right post)
    (whole : f.cells = m.work.line.cells) (ran : (applyBinary f op).outcome m = .ok ((), m')) :
    m.Rewrites pre (left ++ f.cell :: right) post m' := by
  obtain ⟨x, m₁, hx, ran₁⟩ := outcome_bind_ok ran
  obtain ⟨prev, operandX, rfl⟩ := asOperand_ok hx
  obtain ⟨y, m₂, hy, ran₂⟩ := outcome_bind_ok ran₁
  obtain ⟨next, operandY, rfl⟩ := asOperand_ok hy
  obtain ⟨a, m₃, ha, ran₃⟩ := outcome_bind_ok ran₂
  obtain ⟨-, rfl⟩ := valueOf_ok ha
  obtain ⟨b, m₄, hb, ran₄⟩ := outcome_bind_ok ran₃
  obtain ⟨-, rfl⟩ := valueOf_ok hb
  obtain ⟨v, m₅, hv, ran₅⟩ := outcome_bind_ok ran₄
  obtain ⟨-, rfl⟩ := ofCause_ok hv
  obtain ⟨rest, onLeft⟩ := inside.prev prev (TokenKind.isPlain_of_isOperand operandX)
  obtain ⟨rest', onRight⟩ := inside.next next (TokenKind.isPlain_of_isOperand operandY)
  obtain rfl := (settles_between whole prev next v).of_ok ran₅
  refine rewrites_result inside whole onLeft (show right = [y] ++ rest' from onRight) v m₅.nextId
    (.refl _) _ _ ?_
  simp [inside.before, inside.after, onLeft, onRight]

theorem applyUnary_rewrites {op : Operator} (inside : f.Inside pre left right post)
    (whole : f.cells = m.work.line.cells) (ran : (applyUnary f op).outcome m = .ok ((), m')) :
    m.Rewrites pre (left ++ f.cell :: right) post m' := by
  obtain ⟨y, m₁, hy, ran₁⟩ := outcome_bind_ok ran
  obtain ⟨next, operand, rfl⟩ := asOperand_ok hy
  obtain ⟨rest, onRight⟩ := inside.next next (TokenKind.isPlain_of_isOperand operand)
  have plain := inside.plain
  simp only [plain_append, plain_cons] at plain
  split at ran₁
  · rename_i priority _
    obtain rfl := (settles_wait whole priority).of_ok ran₁
    refine rewrites_around inside whole (show left = left ++ [] by simp)
      (show right = [] ++ right from rfl)
        [{ f.cell with token := { f.cell.token with priority } }] ?_ ?_ ?_ (.refl _) _ _ ?_
    · simpa using plain.2.1
    · simp
    · simp
    · simp [Focus.cells, inside.before, inside.after]
  · obtain ⟨a, m₂, ha, ran₂⟩ := outcome_bind_ok ran₁
    obtain ⟨-, rfl⟩ := valueOf_ok ha
    obtain ⟨v, m₃, hv, ran₃⟩ := outcome_bind_ok ran₂
    obtain ⟨-, rfl⟩ := ofCause_ok hv
    obtain rfl := (settles_before whole next v).of_ok ran₃
    refine rewrites_result inside whole (show left = left ++ [] by simp)
      (show right = [y] ++ rest from onRight) v m₃.nextId (.refl _) _ _ ?_
    simp [inside.before, inside.after, onRight]

/-- The target of an assignment is made of plain cells. -/
theorem assignmentTarget?_inside (inside : f.Inside pre left right post) {name : String}
    {declared : Option ValueType} {before : List Cell}
    (target : assignmentTarget? f.before = some (name, declared, before)) :
    ∃ a used, left = a ++ used ∧ before.reverse = pre ++ a := by
  cases cells : f.before with
  | nil =>
      rw [cells] at target
      cases target
  | cons x rest =>
      rw [cells, assignmentTarget?] at target
      split at target
      · rename_i kind
        obtain ⟨a, rfl⟩ := inside.prev (c := x) (by simp [Focus.prev?, cells])
          (by rw [kind]; rfl)
        have onward : rest = a.reverse ++ pre.reverse := by
          have same := inside.before
          rw [cells, List.reverse_append, List.reverse_singleton] at same
          exact (List.cons.inj same).2
        split at target
        · cases target
          exact ⟨a, [x], rfl, by rw [onward]; simp⟩
        · rename_i c rest'
          split at target
          · rename_i type kindC
            cases target
            -- The type stands among the plain cells as well.
            rcases List.eq_nil_or_concat a with rfl | ⟨a', d, rfl⟩
            · have member : c ∈ pre := by
                have : c ∈ pre.reverse := by
                  rw [List.reverse_nil, List.nil_append] at onward
                  rw [← onward]
                  simp
                exact List.mem_reverse.1 this
              have := inside.firmPre c member
              rw [kindC] at this
              cases this
            · rw [List.concat_eq_append, List.reverse_append, List.reverse_singleton] at onward
              refine ⟨a', [d, x], by simp, ?_⟩
              rw [(List.cons.inj onward).2]
              simp
          · cases target
            exact ⟨a, [x], rfl, by rw [onward]; simp⟩
      · cases target

theorem assigned_grows {symbols symbols' : Symbols} {op : Operator} {name : String}
    {declared : Option ValueType} {value : Value}
    (made : assigned symbols op name declared value = .ok symbols') : symbols.Grows symbols' := by
  unfold assigned at made
  split at made
  · split at made
    · cases made
    · exact Symbols.grows_add made
  · split at made
    · exact Symbols.grows_update made
    · exact Symbols.grows_add made

theorem assign_rewrites {op : Operator} (inside : f.Inside pre left right post)
    (whole : f.cells = m.work.line.cells) (ran : (assign f op).outcome m = .ok ((), m')) :
    m.Rewrites pre (left ++ f.cell :: right) post m' := by
  unfold assign at ran
  split at ran
  · cases ran
  · rename_i name declared before target
    obtain ⟨a, used, onLeft, reversed⟩ := assignmentTarget?_inside inside target
    obtain ⟨y, m₁, hy, ran₁⟩ := outcome_bind_ok ran
    obtain ⟨next, operand, rfl⟩ := asOperand_ok hy
    obtain ⟨rest, onRight⟩ := inside.next next (TokenKind.isPlain_of_isOperand operand)
    obtain ⟨v, m₂, hv, ran₂⟩ := outcome_bind_ok ran₁
    obtain ⟨-, rfl⟩ := valueOf_ok hv
    obtain ⟨m₃, m₄, same, ran₃⟩ := outcome_bind_ok ran₂
    cases same
    -- A compound assignment applies its operation first; the rest is the same for all.
    have finish : ∀ w, (do
        let symbols ← ofCause f.cell.token.line (assigned m₂.symbols op name declared w)
        setSymbols symbols
        emit (.assigned name w)
        if declared.isSome then removeEach (f.before.tail.take 1)
        answer f.cell.ref w
        removeEach (f.before.take 1)
        remove y.ref : Action Unit).outcome m₂ = .ok ((), m') →
        m₂.Rewrites pre (left ++ f.cell :: right) post m' := by
      intro w ran₄
      obtain ⟨symbols, m₅, hs, ran₅⟩ := outcome_bind_ok ran₄
      obtain ⟨made, rfl⟩ := ofCause_ok hs
      obtain rfl := (settles_assigned (m := { m₅ with symbols }) whole target next w).of_ok ran₅
      refine rewrites_result inside whole onLeft (show right = [y] ++ rest from onRight) w m₅.nextId
        (assigned_grows made) _ _ ?_
      simp [reversed, inside.after, onRight]
    cases operation : op.operation? with
    | none =>
        rw [operation] at ran₃
        exact finish v ran₃
    | some base =>
        rw [operation] at ran₃
        obtain ⟨w, m₅, hw, ran₄⟩ := outcome_bind_ok ran₃
        obtain ⟨-, rfl⟩ := ofCause_ok hw
        exact finish w ran₄

theorem declare_rewrites {type : ValueType} (inside : f.Inside pre left right post)
    (whole : f.cells = m.work.line.cells) (ran : (declare f type).outcome m = .ok ((), m')) :
    m.Rewrites pre (left ++ f.cell :: right) post m' := by
  unfold declare at ran
  split at ran
  · obtain ⟨m₁, m₂, same, ran₁⟩ := outcome_bind_ok ran
    cases same
    obtain ⟨symbols, m₃, hs, ran₂⟩ := outcome_bind_ok ran₁
    obtain ⟨made, rfl⟩ := ofCause_ok hs
    obtain rfl := (settles_drop (m := { m₃ with symbols }) whole).of_ok ran₂
    refine rewrites_around inside whole (show left = left ++ [] by simp)
      (show right = [] ++ right from rfl) [] plain_nil (by simp) (by simp)
      (Symbols.grows_add made) _ _ ?_
    simp [inside.before, inside.after]
  · cases ran

/-!
Templates.
-/

theorem map_ref_chainCells (line : Nat) (priority : Int) (r : Ref) (id : Nat)
    (kinds : List TokenKind) :
    (chainCells line priority r id kinds).map Cell.ref = List.range' r kinds.length := by
  induction kinds generalizing r id with
  | nil => rfl
  | cons k kinds ih => simp [chainCells, ih, List.range'_succ]

theorem map_kind_chainCells (line : Nat) (priority : Int) (r : Ref) (id : Nat)
    (kinds : List TokenKind) :
    (chainCells line priority r id kinds).map (fun c => c.token.kind) = kinds := by
  induction kinds generalizing r id with
  | nil => rfl
  | cons k kinds ih =>
      cases k <;> simp [chainCells, pieceToken, ih, Token.new]

theorem mem_intersperse {k sep : TokenKind} {kinds : List TokenKind}
    (member : k ∈ kinds.intersperse sep) : k = sep ∨ k ∈ kinds := by
  induction kinds with
  | nil => cases member
  | cons x kinds ih =>
      cases kinds with
      | nil => exact .inr member
      | cons y kinds =>
          rw [List.intersperse_cons_cons, List.mem_cons, List.mem_cons] at member
          rcases member with rfl | rfl | member
          · exact .inr (by simp)
          · exact .inl rfl
          · exact (ih member).imp_right (List.mem_cons_of_mem _)

theorem mem_expansion {k : TokenKind} {segments : List Template.Segment}
    (member : k ∈ Template.expansion segments) : k.isOperand = true ∨ k = .operator .add := by
  have operand : ∀ s : Template.Segment, s.kind.isOperand = true := by
    rintro (s | s) <;> rfl
  rcases mem_intersperse member with same | member
  · exact .inr same
  · refine .inl ?_
    unfold Template.operands at member
    split at member <;>
    · rcases List.mem_cons.1 member with rfl | member
      · rfl
      · obtain ⟨s, -, rfl⟩ := List.mem_map.1 member
        exact operand s

theorem splice_fresh {before after : List Nat} {start n : Nat} (distinct : (before ++ after).Nodup)
    (below : ∀ i ∈ before ++ after, i < start) :
    (before ++ List.range' start n ++ after).Nodup ∧
      ∀ i ∈ before ++ List.range' start n ++ after, i < start + n := by
  have both : (before ++ List.range' start n ++ after).Perm
      (List.range' start n ++ (before ++ after)) := by
    rw [← List.append_assoc]
    exact List.perm_append_comm.append_right _
  constructor
  · rw [both.nodup_iff, List.nodup_append]
    refine ⟨List.nodup_range', distinct, fun i hi j hj => ?_⟩
    exact Nat.ne_of_gt (Nat.lt_of_lt_of_le (below j hj) (List.mem_range'_1.1 hi).1)
  · intro i hi
    rw [both.mem_iff, List.mem_append] at hi
    rcases hi with new | old
    · exact (List.mem_range'_1.1 new).2
    · exact Nat.lt_add_right n (below i old)

theorem sound_chain {l : Line} (sound : l.Sound) (whole : f.cells = l.cells) {chain : List Cell}
    (refs : chain.map Cell.ref = List.range' l.nextRef chain.length) :
    Line.Sound { cells := f.before.reverse ++ chain ++ f.after
                 nextRef := l.nextRef + chain.length } := by
  have old : (f.before.reverse.map Cell.ref ++ f.after.map Cell.ref).Sublist l.refs := by
    rw [Line.refs, ← whole, Focus.cells, List.map_append]
    exact (List.Sublist.refl _).append ((List.sublist_cons_self _ _).map _)
  have new : (f.before.reverse ++ chain ++ f.after).map Cell.ref =
      f.before.reverse.map Cell.ref ++ List.range' l.nextRef chain.length ++
        f.after.map Cell.ref := by
    rw [List.map_append, List.map_append, refs]
  obtain ⟨distinct, below⟩ := splice_fresh (n := chain.length) (old.nodup sound.distinct)
    fun r hr => sound.below r (old.subset hr)
  constructor
  · rw [Line.refs, new]
    exact distinct
  · rw [Line.refs, new]
    exact below

theorem expandTemplate_rewrites {template : String} (inside : f.Inside pre left right post)
    (whole : f.cells = m.work.line.cells)
    (ran : (expandTemplate f template).outcome m = .ok ((), m')) :
    m.Rewrites pre (left ++ f.cell :: right) post m' := by
  obtain ⟨segments, m₁, hs, ran₁⟩ := outcome_bind_ok ran
  obtain ⟨-, rfl⟩ := ofCause_ok hs
  obtain rfl := (settles_expanded whole _ _).of_ok ran₁
  generalize hkinds : Template.expansion segments = kinds
  have added : ∀ k ∈ kinds, k.isPlain = true ∧ k ≠ .keyword .system := by
    intro k hk
    rcases mem_expansion (hkinds ▸ hk) with operand | rfl
    · refine ⟨TokenKind.isPlain_of_isOperand operand, ?_⟩
      rintro rfl
      cases operand
    · exact ⟨rfl, nofun⟩
  generalize hchain : chainCells f.cell.token.line _ m₁.work.line.nextRef m₁.nextId kinds = chain
  have kind : chain.map (fun c => c.token.kind) = kinds := by
    rw [← hchain, map_kind_chainCells]
  have length : chain.length = kinds.length := by rw [← kind, List.length_map]
  have refs : chain.map Cell.ref = List.range' m₁.work.line.nextRef chain.length := by
    rw [length, ← hchain, map_ref_chainCells]
  have mem : ∀ c ∈ chain, c.token.kind ∈ kinds := fun c hc => kind ▸ List.mem_map_of_mem hc
  have plain := inside.plain
  simp only [plain_append, plain_cons] at plain
  refine ⟨rfl, .refl _, ?_, .inl ⟨left ++ chain ++ right, ?_, ?_, ?_⟩⟩
  · intro sound
    rw [← length]
    exact sound_chain sound whole refs
  · simp [inside.before, inside.after]
  · simp only [plain_append]
    exact ⟨⟨plain.1, fun c hc => (added _ (mem c hc)).1⟩, plain.2.2⟩
  · simp only [systemFree_append, systemFree_cons]
    exact fun free => ⟨⟨free.1, fun c hc => (added _ (mem c hc)).2⟩, free.2.2⟩

/-!
Built-in functions and parentheses.
-/

theorem append_firm {used rest cells : List Cell} (same : used ++ rest = cells ++ post)
    (last : ∀ c, used.getLast? = some c → c.token.kind.isPlain = true) (firm : Firm post) :
    ∃ b, cells = used ++ b ∧ rest = b ++ post := by
  rcases List.append_eq_append_iff.1 same with ⟨b, hcells, hrest⟩ | ⟨x, hused, hpost⟩
  · exact ⟨b, hcells, hrest⟩
  · rcases List.eq_nil_or_concat x with rfl | ⟨xs, c, rfl⟩
    · exact ⟨[], by simpa using hused.symm, by simpa using hpost.symm⟩
    · have plain := last c (by rw [hused]; simp)
      rw [firm c (by rw [hpost]; simp)] at plain
      cases plain

/-- The arguments of a built-in function are operands, with commas between them. -/
theorem builtinArguments_append {cells rest : List Cell} {args : List Value}
    (read : builtinArguments m cells = .ok (args, rest)) :
    ∃ used, cells = used ++ rest ∧
      ∀ c ∈ used, c.token.kind.isOperand = true ∨ c.token.kind = .comma := by
  induction cells generalizing args with
  | nil =>
      cases read
      exact ⟨[], rfl, nofun⟩
  | cons c cells ih =>
      rw [builtinArguments] at read
      split at read
      · rename_i comma
        obtain ⟨used, rfl, plain⟩ := ih read
        exact ⟨c :: used, rfl, List.forall_mem_cons.2 ⟨.inr comma, plain⟩⟩
      · split at read
        · rename_i operand
          cases value : m.valueOf c.token with
          | error stop => simp [value] at read
          | ok v =>
              cases more : builtinArguments m cells with
              | error stop => simp [value, more] at read
              | ok r =>
                  simp only [value, more, Except.bind_eq_bind, Except.bind_ok, Except.pure_eq_ok,
                    Except.ok.injEq, Prod.mk.injEq] at read
                  obtain ⟨-, rfl⟩ := read
                  obtain ⟨used, same, plain⟩ := ih more
                  exact ⟨c :: used, by rw [same]; rfl, List.forall_mem_cons.2 ⟨.inl operand, plain⟩⟩
        · cases read
          exact ⟨[], rfl, nofun⟩

theorem isPlain_of_builtinName? {k : TokenKind} {name : String}
    (named : builtinName? k = some name) :
    k.isPlain = true := by
  cases k with
  | literal _ => rfl
  | name _ => rfl
  | type _ => rfl
  | _ => cases named

theorem callBuiltin_rewrites (kind : f.cell.token.kind = .keyword .system)
    (inside : f.Inside pre left right post) (whole : f.cells = m.work.line.cells)
    (ran : (callBuiltin f).outcome m = .ok ((), m')) :
    m.Rewrites pre (left ++ f.cell :: right) post m' := by
  unfold callBuiltin at ran
  split at ran
  · cases ran
  · rename_i target following after
    split at ran
    · cases ran
    · rename_i name named
      obtain ⟨right', rfl⟩ := inside.next (c := target) (by rw [Focus.next?, after]; rfl)
        (isPlain_of_builtinName? named)
      have tail : following = right' ++ post := by
        have same := inside.after
        rw [after] at same
        exact (List.cons.inj same).2
      obtain ⟨m₀, m₁, same, ran₁⟩ := outcome_bind_ok ran
      cases same
      obtain ⟨⟨args, rest⟩, m₂, hread, ran₂⟩ := outcome_bind_ok ran₁
      obtain ⟨read, rfl⟩ := ofExcept_ok hread
      obtain ⟨used, split, read⟩ := builtinArguments_append read
      have plain : Plain used := by
        intro c hc
        rcases read c hc with operand | comma
        · exact TokenKind.isPlain_of_isOperand operand
        · rw [comma]
          rfl
      obtain ⟨b, onRight, onRest⟩ := append_firm (split.symm.trans tail)
        (fun c hc => plain c (List.mem_of_getLast? hc)) inside.firmPost
      obtain ⟨⟨⟩, m₃, printed, ran₃⟩ := outcome_bind_ok ran₂
      have whole₃ : f.cells = m₃.work.line.cells := by
        cases printed
        exact whole
      obtain ⟨result, m₄, hresult, ran₄⟩ := outcome_bind_ok ran₃
      obtain ⟨-, rfl⟩ := ofCause_ok hresult
      simp only [outcome_bind, outcome_emit, Except.bind_ok] at ran₄
      split at ran₄
      · rename_i v
        obtain rfl := (settles_read whole₃ after split v).of_ok ran₄
        cases printed
        refine rewrites_result inside whole (show left = left ++ [] by simp)
          (show target :: right' = (target :: used) ++ b by rw [onRight]; rfl) v m₂.nextId (.refl _)
          _ _ ?_
        simp [inside.before, onRest]
      · cases ran₄
        cases printed
        refine ⟨rfl, .refl _, fun sound => sound.withCells (by simp), .inr ⟨rfl, ?_⟩⟩
        intro free
        exact free f.cell (by simp) kind

theorem kind_splitClose? {b : Bracket} {depth : Nat} {cells inner rest : List Cell} {close : Cell}
    (found : Line.splitClose? b depth cells = some (inner, close, rest)) :
    close.token.kind = .bracket b .closing := by
  induction cells generalizing depth inner with
  | nil => cases found
  | cons c cells ih =>
      have onward {d : Nat} (deeper : (Line.splitClose? b d cells).map
          (fun parts => (c :: parts.1, parts.2.1, parts.2.2)) = some (inner, close, rest)) :
          close.token.kind = .bracket b .closing := by
        obtain ⟨⟨inner', close', rest'⟩, split, same⟩ := Option.map_eq_some_iff.1 deeper
        simp only [Prod.mk.injEq] at same
        obtain ⟨rfl, rfl, rfl⟩ := same
        exact ih split
      simp only [Line.splitClose?] at found
      split at found
      · exact onward found
      · split at found
        · rename_i kind
          split at found
          · cases found
            exact kind
          · exact onward found
        · exact onward found

theorem splitClose?_inside {b : Bracket} {inner rest : List Cell} {close : Cell}
    (round : b ≠ .scope) (inside : f.Inside pre left right post)
    (found : Line.splitClose? b 0 f.after = some (inner, close, rest)) :
    ∃ more, right = (inner ++ [close]) ++ more ∧ rest = more ++ post := by
  have same : (inner ++ [close]) ++ rest = right ++ post := by
    rw [← inside.after, ← Line.splitClose?_append found]
    simp
  refine append_firm same ?_ inside.firmPost
  intro c hc
  obtain rfl : close = c := by simpa using hc
  rw [kind_splitClose? found]
  cases b with
  | scope => exact absurd rfl round
  | _ => rfl

/-- The first visit of an opening parenthesis, and the end of a group. -/
theorem applyParen_rewrites {b : Bracket} (kind : f.cell.token.kind = .bracket b .opening)
    (round : b ≠ .scope) (inside : f.Inside pre left right post)
    (whole : f.cells = m.work.line.cells) (ran : (applyParen f b).outcome m = .ok ((), m')) :
    m.Rewrites pre (left ++ f.cell :: right) post m' ∨
      b = .call ∧ ∃ inner close rest, Line.splitClose? b 0 f.after = some (inner, close, rest) ∧
        (beginCall f inner close).outcome m = .ok ((), m') := by
  have plain := inside.plain
  simp only [plain_append, plain_cons] at plain
  rw [applyParen, Line.enclosed_eq kind, ofFault_ok_bind] at ran
  split at ran
  · cases ran
  · rename_i inner close rest found
    have ahead := (Line.splitClose?_append found).symm
    obtain ⟨more, onRight, onRest⟩ := splitClose?_inside round inside found
    have inner_plain : Plain inner ∧ close.token.kind.isPlain = true := by
      rw [onRight] at plain
      simp only [plain_append, plain_cons] at plain
      exact ⟨plain.2.2.1.1, plain.2.2.1.2.1⟩
    cases expanded : f.cell.token.expanded with
    | false =>
      simp only [expanded, Bool.not_false, if_true] at ran
      obtain rfl := (settles_reached whole ahead).of_ok ran
      refine .inl (rewrites_around inside whole (show left = left ++ [] by simp) onRight
        ({ f.cell with token := { f.cell.token with expanded := true } } ::
          (Line.boostUntil close.ref Priority.boost inner ++ [close])) ?_ ?_ ?_ (.refl _) _ _ ?_)
      · simp only [plain_append, plain_cons]
        refine ⟨plain.2.1, ?_, inner_plain.2, plain_nil⟩
        intro c hc
        rcases Line.mem_boostUntil hc with old | ⟨d, hd, rfl⟩
        · exact inner_plain.1 c old
        · exact inner_plain.1 d hd
      · simp only [List.nil_append, systemFree_append, systemFree_cons]
        refine fun free => ⟨free.1, ?_, free.2.2⟩
        intro c hc
        rcases Line.mem_boostUntil hc with old | ⟨d, hd, rfl⟩
        · exact free.2.1 c old
        · exact free.2.1 d hd
      · simp
      · simp [inside.before, onRest]
    | true =>
      simp only [expanded, Bool.not_true, Bool.false_eq_true, if_false] at ran
      split at ran
      · rename_i call
        exact .inr ⟨call, inner, close, rest, found, ran⟩
      · split at ran
        · cases ran
        · rename_i c
          split at ran
          · obtain rfl := (settles_unwrapped whole ahead).of_ok ran
            refine .inl (rewrites_around inside whole (show left = left ++ [] by simp) onRight [c]
              (by simpa using inner_plain.1) ?_ ?_ (.refl _) _ _ ?_)
            · simp +contextual
            · simp
            · simp [inside.before, onRest]
          · cases ran
        · cases ran

/-- What a plain token does: it is reduced, or it makes a call. -/
theorem perform_rewrites (inside : f.Inside pre left right post)
    (whole : f.cells = m.work.line.cells) (ran : (perform f).outcome m = .ok ((), m')) :
    m.Rewrites pre (left ++ f.cell :: right) post m' ∨
      f.cell.token.kind = .bracket .call .opening ∧ ∃ inner close rest,
        Line.splitClose? .call 0 f.after = some (inner, close, rest) ∧
        (beginCall f inner close).outcome m = .ok ((), m') := by
  have plain := inside.plain
  simp only [plain_append, plain_cons] at plain
  unfold perform at ran
  split at ran
  · rename_i kind
    rw [kind] at plain
    cases plain.2.1
  · rename_i kind
    rw [kind] at plain
    cases plain.2.1
  · rename_i b notScope kind
    have round : b ≠ .scope := by
      rintro rfl
      exact notScope rfl
    rcases applyParen_rewrites kind round inside whole ran with rewrites | ⟨rfl, call⟩
    · exact .inl rewrites
    · exact .inr ⟨kind, call⟩
  · split at ran
    · exact .inl (assign_rewrites inside whole ran)
    · split at ran
      · exact .inl (applyUnary_rewrites inside whole ran)
      · exact .inl (applyBinary_rewrites inside whole ran)
  · exact .inl (declare_rewrites inside whole ran)
  · exact .inl (expandTemplate_rewrites inside whole ran)
  · rename_i k kind
    have system : k = .system := by
      have := plain.2.1
      rw [kind] at this
      cases k with
      | system => rfl
      | _ => cases this
    subst system
    exact .inl (callBuiltin_rewrites kind inside whole ran)
  · cases ran

end Action

end LineScript
