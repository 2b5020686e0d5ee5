import LineScript.Proofs.Branches.Bodies

/-!
# Chains of branches

A chain is an `if` with its block, and after the block perhaps an `else` with a block or with a
further chain.  Line breaks may stand anywhere between these parts.  `Chain.Selects` says what a run
does with a chain.

An `else` looks for its block on its own line and at the start of the next one.  It finds a block of
its own in every layout, and that of an `if` only if the `if` is on its line.
-/

namespace LineScript

instance decidableEqOk {ε α : Type} [DecidableEq α] (x : Except ε α) (a : α) :
    Decidable (x = .ok a) :=
  decidable_of_iff (x.toOption = some a) Except.toOption_eq_some_iff

/-!
## Tokens of a program
-/

namespace Program

variable {p : Program} {pos : Position} {line : Line} {before after : List Cell} {c d : Cell}

structure CellAt (p : Program) (pos : Position) (line : Line) (before : List Cell) (c : Cell)
    (after : List Cell) : Prop where
  found : p.lines[pos.line]? = some line
  cells : line.cells = before ++ c :: after
  ref : c.ref = pos.token

def kindAt? (p : Program) (pos : Position) : Option TokenKind :=
  (p.tokenAt pos).toOption.map Token.kind

theorem cellAt_of_kindAt? {k : TokenKind} (kind : p.kindAt? pos = some k) :
    ∃ line before c after, p.CellAt pos line before c after ∧ c.token.kind = k := by
  obtain ⟨token, here, rfl⟩ := Option.map_eq_some_iff.1 kind
  rw [Except.toOption_eq_some_iff, tokenAt] at here
  cases found : p.lineAt pos.line with
  | error fault => simp [found] at here
  | ok line =>
      cases focus : line.focus pos.token with
      | error fault => simp [found, Line.get, focus] at here
      | ok f =>
          simp only [found, Line.get, focus, Except.bind_eq_bind, Except.bind_ok, Except.map_ok_eq,
            Except.ok.injEq] at here
          obtain ⟨whole, ref⟩ := Line.focus_ok focus
          have at_line : p.lines[pos.line]? = some line := by
            unfold lineAt at found
            split at found
            · rename_i same
              cases found
              exact same
            · cases found
          exact ⟨line, f.before.reverse, f.cell, f.after, ⟨at_line, whole.symm, ref⟩, by rw [here]⟩

namespace CellAt

theorem focus (cell : p.CellAt pos line before c after) (loaded : p.Loaded) :
    line.focus pos.token = .ok { before := before.reverse, cell := c, after } := by
  rw [← cell.ref]
  exact (loaded.line cell.found).focus before cell.cells

theorem kind (cell : p.CellAt pos line before c after) (loaded : p.Loaded) :
    p.kindAt? pos = some c.token.kind := by
  simp [kindAt?, tokenAt, lineAt_eq cell.found, Line.get, cell.focus loaded, Except.toOption]

theorem following_cons (cell : p.CellAt pos line before c (d :: after)) (loaded : p.Loaded) :
    p.following pos = .ok (some { line := pos.line, token := d.ref }) := by
  simp [Program.following, lineAt_eq cell.found, Line.next, cell.focus loaded, Focus.next?]

theorem following_nil (cell : p.CellAt pos line before c []) (loaded : p.Loaded) :
    p.following pos = .ok (p.firstFrom? (pos.line + 1)) := by
  simp [Program.following, lineAt_eq cell.found, Line.next, cell.focus loaded, Focus.next?]

end CellAt

theorem cellAt_firstFrom? (loaded : p.Loaded) {i : Nat} (first : p.firstFrom? i = some pos) :
    pos.line = i ∧ ∃ line c after, p.CellAt pos line [] c after := by
  rw [firstFrom?_eq loaded] at first
  obtain ⟨line, found, head⟩ := Option.bind_eq_some_iff.1 first
  obtain ⟨c, leads, rfl⟩ := Option.map_eq_some_iff.1 head
  obtain ⟨after, cells⟩ := List.head?_eq_some_iff.1 leads
  exact ⟨rfl, line, c, after, found, cells, rfl⟩

structure IfBlock (p : Program) (head : Position) (block : Extent) : Prop where
  keyword : p.kindAt? head = some (.keyword .if)
  block : p.blockAfter head = .ok block
  alone : ∀ line ∈ p.lines[head.line]?, ∀ c ∈ line.cells, c.token.kind.hasBody = false

structure ElseAfter (p : Program) (block : Extent) (mark : Position) : Prop where
  follows : p.following block.closing = .ok (some mark)
  keyword : p.kindAt? mark = some (.keyword .else)

instance (p : Program) (head : Position) (block : Extent) : Decidable (p.IfBlock head block) :=
  decidable_of_iff
    (p.kindAt? head = some (.keyword .if) ∧ p.blockAfter head = .ok block ∧
      ∀ line ∈ p.lines[head.line]?, ∀ c ∈ line.cells, c.token.kind.hasBody = false)
    ⟨fun ⟨a, b, c⟩ => ⟨a, b, c⟩, fun ⟨a, b, c⟩ => ⟨a, b, c⟩⟩

instance (p : Program) (block : Extent) (mark : Position) : Decidable (p.ElseAfter block mark) :=
  decidable_of_iff
    (p.following block.closing = .ok (some mark) ∧ p.kindAt? mark = some (.keyword .else))
    ⟨fun ⟨a, b⟩ => ⟨a, b⟩, fun ⟨a, b⟩ => ⟨a, b⟩⟩

end Program

/-!
## Chains
-/

/-- An `if` with its block, and what belongs to it after the block. -/
inductive Chain where
  | last (head : Position) (block : Extent)
  /-- An `else` with a block. -/
  | otherwise (head : Position) (block : Extent) (mark : Position) (other : Extent)
  /-- An `else` with a further `if`. -/
  | further (head : Position) (block : Extent) (mark : Position) (rest : Chain)

namespace Chain

def head : Chain → Position
  | .last head _ => head
  | .otherwise head _ _ _ => head
  | .further head _ _ _ => head

def block : Chain → Extent
  | .last _ block => block
  | .otherwise _ block _ _ => block
  | .further _ block _ _ => block

def lastBlock : Chain → Extent
  | .last _ block => block
  | .otherwise _ _ _ other => other
  | .further _ _ _ rest => rest.lastBlock

/-- Every `if` behind an `else` is on the line of the `else`. -/
def joined : Chain → Bool
  | .last _ _ => true
  | .otherwise _ _ _ _ => true
  | .further _ _ mark rest => mark.line = rest.head.line && rest.joined

/-- The parts are those of a program: after the `}` of a block the next token is an `else`, and the
one after that is a `{` or an `if`.  No `else` follows the last block of an `if`. -/
def In (p : Program) : Chain → Prop
  | .last head block =>
      p.IfBlock head block ∧ ∀ after ∈ (p.following block.closing).toOption, ∀ mark ∈ after,
        p.kindAt? mark ≠ some (.keyword .else)
  | .otherwise head block mark other =>
      p.IfBlock head block ∧ p.ElseAfter block mark ∧
        p.following mark = .ok (some other.opening) ∧ p.kindAt? other.opening = some .openBrace ∧
        p.blockEnd other.opening = .ok other.closing
  | .further head block mark rest =>
      p.IfBlock head block ∧ p.ElseAfter block mark ∧
        p.following mark = .ok (some rest.head) ∧ rest.In p

instance decidableIn (p : Program) : (chain : Chain) → Decidable (chain.In p)
  | .last _ _ => inferInstanceAs (Decidable (_ ∧ _))
  | .otherwise _ _ _ _ => inferInstanceAs (Decidable (_ ∧ _ ∧ _ ∧ _ ∧ _))
  | .further _ _ _ rest =>
      have := decidableIn p rest
      inferInstanceAs (Decidable (_ ∧ _ ∧ _ ∧ _))

end Chain

namespace Machine

structure StandsAt (m : Machine) (pos : Position) : Prop where
  running : m.finished = false
  aim : m.work.purpose = .statement
  index : m.work.index = pos.line
  rest : ((m.program.lineAt pos.line).bind fun line => line.cellsFrom pos.token) =
    .ok m.work.line.cells

def At (m : Machine) : Option Position → Prop
  | none => m.finished = true
  | some pos => m.StandsAt pos

instance (m : Machine) (pos : Position) : Decidable (m.StandsAt pos) :=
  decidable_of_iff
    (m.finished = false ∧ m.work.purpose = .statement ∧ m.work.index = pos.line ∧
      ((m.program.lineAt pos.line).bind fun line => line.cellsFrom pos.token) =
        .ok m.work.line.cells)
    ⟨fun ⟨a, b, c, d⟩ => ⟨a, b, c, d⟩, fun ⟨a, b, c, d⟩ => ⟨a, b, c, d⟩⟩

def decision? (m : Machine) : Option (Position × Bool) :=
  if m.finished then none
  else
    match m.acting? with
    | some ⟨_, cell, condition :: rest⟩ =>
        if cell.token.kind = .keyword .if ∧ rest.head?.all Program.isOpenBrace then
          match m.valueOf condition.token with
          | .ok (.bool b) => some (m.positionOf cell, b)
          | _ => none
        else none
    | _ => none

/-- Whenever an `if` of a run decides, the machine after it is as `yes` or `no` says. -/
def Branches (m : Machine) (head : Position) (yes no : Machine → Prop) : Prop :=
  ∀ k d b, m.after k = .ok d → d.decision? = some (head, b) →
    ∃ e, d.next = .ok e ∧ if b then yes e else no e

/-- Nothing but `else`s act before the run goes on at a position, and nothing else changes. -/
def SkipsTo (m : Machine) (target : Option Position) : Prop :=
  ∃ k m', m.after k = .ok m' ∧ m'.At target ∧
    m' = { m with work := m'.work, finished := m'.finished } ∧
    ∀ j < k, ∀ s f, m.after j = .ok s → s.acting? = some f → f.cell.token.kind = .keyword .else

def Leaves (m : Machine) (target : Option Position) : Prop :=
  ∃ m₁, m.next = .ok m₁ ∧ m₁ = { m with symbols := m.symbols.pop, work := m₁.work } ∧
    m₁.SkipsTo target

def MissesBlock (m : Machine) : Prop :=
  ∃ k m' line, m.after k = .ok m' ∧ m'.next = .error (.at line (.missingBlock "else"))

/-- The machine opens a block; when it comes to the `}`, it is as `Q` says. -/
def GoesInto (m : Machine) (block : Extent) (Q : Machine → Prop) : Prop :=
  m.At (some block.opening) ∧ (∃ m₁, m.next = .ok m₁ ∧ m₁.symbols = m.symbols.push) ∧
    ∀ k m', m.after k = .ok m' → m'.At (some block.closing) → Q m'

end Machine

/-- What a run does with a chain, whatever the conditions come to: the block of the first one that
is `true` is gone into, else that of the last `else`, else none; and it goes on behind the chain. -/
def Chain.Selects (finish : Option Position) : Chain → Machine → Prop
  | .last head block, m =>
      m.Branches head (fun e => e.GoesInto block fun m' => m'.Leaves finish) fun e => e.At finish
  | .otherwise head block _ other, m =>
      m.Branches head (fun e => e.GoesInto block fun m' => m'.Leaves finish) fun e =>
        e.GoesInto other fun m' => m'.Leaves finish
  | .further head block mark rest, m =>
      m.Branches head
        (fun e => e.GoesInto block fun m' =>
          if (Chain.further head block mark rest).joined then m'.Leaves finish else m'.MissesBlock)
        fun e => e.At (some rest.head) ∧ rest.Selects finish e

/-!
## Blocks of a chain
-/

namespace Program

variable {p : Program} {head mark : Position} {block other : Extent} {line : Line} {c d : Cell}
  {before after : List Cell}

theorem IfBlock.guards (guarded : p.IfBlock head block) (balanced : p.Balanced) :
    p.Guards head.line block := by
  obtain ⟨line, before, c, after, cell, kind⟩ := cellAt_of_kindAt? guarded.keyword
  have made := guarded.block
  obtain ⟨t, r⟩ := head
  obtain rfl : c.ref = r := cell.ref
  have bare : c.token.kind.isScopeBracket = false := by rw [kind]; rfl
  obtain ⟨headed, isBlock⟩ := headedBy_of_blockAfter balanced cell.found cell.cells bare made
  refine ⟨isBlock, headed.near, line, c, cell.found, by simp [cell.cells], ?_, ?_⟩
  · rw [kind]
    nofun
  · exact guarded.alone line cell.found

theorem ElseAfter.cell (elseAfter : p.ElseAfter block mark) (isBlock : p.IsBlock block)
    (balanced : p.Balanced) :
    ∃ line c after, p.CellAt mark line [] c after ∧ c.token.kind = .keyword .else := by
  obtain ⟨close, ends⟩ := isBlock.ends balanced
  have follows := elseAfter.follows
  rw [ends.following balanced.loaded] at follows
  obtain ⟨-, line, c, after, cell⟩ := cellAt_firstFrom? balanced.loaded (Except.ok.inj follows)
  have kind := elseAfter.keyword
  rw [cell.kind balanced.loaded] at kind
  exact ⟨line, c, after, cell, Option.some.inj kind⟩

theorem CellAt.blockStart_cons (cell : p.CellAt mark line before c (d :: after)) (loaded : p.Loaded)
    (kind : d.token.kind = .openBrace) :
    p.blockStart mark = .ok { line := mark.line, token := d.ref } := by
  simp [blockStart, lineAt_eq cell.found, cell.focus loaded, orFault, isOpenBrace_iff.2 kind]

theorem CellAt.blockStart_nil (cell : p.CellAt mark line before c []) (loaded : p.Loaded)
    {below : Position} {line' : Line} (under : p.CellAt below line' [] d after)
    (next : below.line = mark.line + 1) :
    p.blockStart mark = if d.token.kind = .openBrace then .ok below
      else .error (.at c.token.line (.missingBlock c.token.text)) := by
  have head : (p.lines[mark.line + 1]?).bind (fun line => line.cells.head?) = some d := by
    rw [← next, under.found, Option.bind_some, under.cells, List.nil_append, List.head?_cons]
  have same : { line := mark.line + 1, token := d.ref } = below := by rw [← next, under.ref]
  simp only [blockStart, lineAt_eq cell.found, cell.focus loaded, orFault, Except.mapError_ok_eq,
    Except.bind_eq_bind, Except.bind_ok, List.find?_nil, head, Option.filter_some, isOpenBrace,
    decide_eq_true_eq]
  by_cases opening : d.token.kind = .openBrace
  · rw [if_pos opening, if_pos opening, ← same]
    rfl
  · rw [if_neg opening, if_neg opening]
    rfl

theorem CellAt.guards_else (cell : p.CellAt mark line [] c after) (balanced : p.Balanced)
    (kind : c.token.kind = .keyword .else) (follows : p.following mark = .ok (some other.opening))
    (brace : p.kindAt? other.opening = some .openBrace)
    (matched : p.blockEnd other.opening = .ok other.closing) :
    p.blockAfter mark = .ok other ∧ p.Guards mark.line other := by
  have loaded := balanced.loaded
  have notBrace : c.token.kind ≠ .openBrace := by rw [kind]; nofun
  cases after with
  | nil =>
      rw [cell.following_nil loaded] at follows
      obtain ⟨next, line', d, rest, under⟩ := cellAt_firstFrom? loaded (Except.ok.inj follows)
      rw [under.kind loaded] at brace
      have opening := Option.some.inj brace
      have alone := balanced.brace_alone under.found under.cells opening
      have started := cell.blockStart_nil loaded under next
      rw [if_pos opening] at started
      refine ⟨by simp [blockAfter, started, matched], ⟨⟨line', [], d, under.found, alone, opening,
        under.ref⟩, matched⟩, .inr ⟨next, line', d, under.found, alone⟩, line, c, cell.found,
        by simp [cell.cells], notBrace, ?_⟩
      simp [cell.cells, kind, TokenKind.hasBody]
  | cons d rest =>
      rw [cell.following_cons loaded, Except.ok.injEq, Option.some.injEq] at follows
      have beside : p.CellAt other.opening line [c] d rest := by
        rw [← follows]
        exact ⟨cell.found, cell.cells, rfl⟩
      rw [beside.kind loaded] at brace
      have opening := Option.some.inj brace
      have started := cell.blockStart_cons loaded opening
      rw [follows] at started
      -- Nothing stands behind a `{`.
      obtain rfl : rest = [] := by
        cases rest with
        | nil => rfl
        | cons x rest =>
            have cells : line.cells = [c, d] ++ x :: rest := cell.cells
            exact absurd opening (balanced.not_openBrace cell.found cells (by simp))
      refine ⟨by simp [blockAfter, started, matched], ⟨⟨line, [c], d, beside.found, beside.cells,
        opening, beside.ref⟩, matched⟩, .inl (by rw [← follows]), line, c, cell.found,
        by simp [cell.cells], notBrace, ?_⟩
      simp [cell.cells, kind, opening, TokenKind.hasBody, TokenKind.openBrace]

theorem CellAt.blockAfter_else (cell : p.CellAt mark line [] c after) (balanced : p.Balanced)
    (follows : p.following mark = .ok (some head)) (guarded : p.IfBlock head block)
    (same : mark.line = head.line) : p.blockAfter mark = .ok block := by
  have loaded := balanced.loaded
  cases after with
  | nil =>
      rw [cell.following_nil loaded] at follows
      have next := (cellAt_firstFrom? loaded (Except.ok.inj follows)).1
      omega
  | cons d rest =>
      rw [cell.following_cons loaded, Except.ok.injEq, Option.some.injEq] at follows
      have beside : p.CellAt head line [c] d rest := by
        rw [← follows]
        exact ⟨cell.found, cell.cells, rfl⟩
      have kind := guarded.keyword
      rw [beside.kind loaded] at kind
      have bare : d.token.kind.isScopeBracket = false := by rw [Option.some.inj kind]; rfl
      have made := guarded.block
      rw [← follows] at made
      have cells : line.cells = [] ++ c :: ([] ++ d :: rest) := cell.cells
      have found := blockAfter_skip balanced cell.found cells bare made
      rwa [cell.ref] at found

theorem CellAt.blockAfter_missing (cell : p.CellAt mark line [] c after) (loaded : p.Loaded)
    (kind : c.token.kind = .keyword .else) (follows : p.following mark = .ok (some head))
    (word : p.kindAt? head = some (.keyword .if)) (apart : mark.line ≠ head.line) :
    p.blockAfter mark = .error (.at c.token.line (.missingBlock "else")) := by
  cases after with
  | cons d rest =>
      rw [cell.following_cons loaded, Except.ok.injEq, Option.some.injEq] at follows
      exact absurd (by rw [← follows]) apart
  | nil =>
      rw [cell.following_nil loaded] at follows
      obtain ⟨next, line', d, rest, under⟩ := cellAt_firstFrom? loaded (Except.ok.inj follows)
      rw [under.kind loaded] at word
      have started := cell.blockStart_nil loaded under next
      rw [if_neg (by rw [Option.some.inj word]; nofun), Token.text, kind] at started
      rw [blockAfter, started]
      rfl

end Program

end LineScript
