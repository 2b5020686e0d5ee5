import LineScript.Proofs.Bindings
import LineScript.Proofs.Safety.Priorities
import LineScript.Proofs.Working

/-!
# What a machine refers to

A machine holds references into lines and positions in its program: in the frames of its loops and
calls, in the records of its blocks, and in its functions.  `Machine.Sane` says that each of them
names a token of the line that it will be used on.  The tokens of a working line are new or changed,
but for the keywords and braces, which are those of the program line that was copied.

`Action.Safe` says of an action that it does not misuse a line or program, and what it leaves if it
succeeds.
-/

namespace LineScript

/-!
## Actions without faults
-/

theorem Machine.valueOf_noFault (m : Machine) (t : Token) (fault : Fault) :
    m.valueOf t ≠ .error (.fault fault) := by
  unfold Machine.valueOf
  split
  · nofun
  · cases m.valueOfName _ <;> nofun
  · nofun

namespace Action

variable {α β : Type} {x : Action α} {f : α → Action β} {m m₁ : Machine} {a : α}
  {Q : α → Machine → Prop} {R : β → Machine → Prop}

/-- The action does not fault, and if it succeeds its result and machine are as `Q` says. -/
def Safe (x : Action α) (m : Machine) (Q : α → Machine → Prop) : Prop :=
  (∀ fault, x.outcome m ≠ .error (.fault fault)) ∧ ∀ a m', x.outcome m = .ok (a, m') → Q a m'

theorem safe_of_ok (ran : x.outcome m = .ok (a, m₁)) (holds : Q a m₁) : x.Safe m Q := by
  rw [Safe, ran]
  refine ⟨nofun, ?_⟩
  rintro _ _ ⟨⟩
  exact holds

theorem safe_of_error {e : RuntimeError} (ran : x.outcome m = .error (.error e)) : x.Safe m Q := by
  rw [Safe, ran]
  exact ⟨nofun, nofun⟩

theorem safe_fail (line : Nat) (cause : Cause) : (fail line cause : Action α).Safe m Q :=
  safe_of_error rfl

theorem safe_raise (e : RuntimeError) : (raise e : Action α).Safe m Q :=
  safe_of_error rfl

theorem Safe.bind (first : x.Safe m Q) (second : ∀ a m₁, Q a m₁ → (f a).Safe m₁ R) :
    (x >>= f).Safe m R := by
  rw [Safe, outcome_bind]
  cases ran : x.outcome m with
  | error stop =>
      refine ⟨?_, nofun⟩
      rintro fault ⟨⟩
      exact first.1 fault ran
  | ok r => exact second r.1 r.2 (first.2 r.1 r.2 ran)

theorem Safe.next (ran : x.outcome m = .ok (a, m₁)) (rest : (f a).Safe m₁ R) :
    (x >>= f).Safe m R := by
  rw [Safe, outcome_bind, ran]
  exact rest

theorem Safe.except {y : Except Stop α} (never : ∀ fault, y ≠ .error (.fault fault))
    (rest : ∀ a, y = .ok a → (f a).Safe m R) : (ofExcept y >>= f).Safe m R := by
  cases result : y with
  | error stop =>
      cases stop with
      | error e => exact safe_of_error (by rw [outcome_bind]; rfl)
      | fault fault => exact absurd result (never fault)
  | ok a => exact .next rfl (rest a result)

theorem Safe.known {y : Except Stop α} (found : y = .ok a) (rest : (f a).Safe m R) :
    (ofExcept y >>= f).Safe m R := by
  subst found
  exact .next rfl rest

theorem Safe.cause {line : Nat} {y : Except Cause α} (rest : ∀ a, y = .ok a → (f a).Safe m R) :
    (ofCause line y >>= f).Safe m R := by
  cases result : y with
  | error cause => exact safe_of_error (by rw [outcome_bind]; rfl)
  | ok a => exact .next rfl (rest a result)

theorem Safe.fault {y : Except Fault α} (found : y = .ok a) (rest : (f a).Safe m R) :
    (ofFault y >>= f).Safe m R := by
  subst found
  exact .next rfl rest

theorem Safe.value {c : Cell} {f : Value → Action β}
    (rest : ∀ v, m.valueOf c.token = .ok v → (f v).Safe m R) : (valueOf c >>= f).Safe m R := by
  have same : (valueOf c >>= f).Safe m R ↔ (ofExcept (m.valueOf c.token) >>= f).Safe m R := by
    simp only [Safe, outcome_bind, outcome_valueOf, outcome_ofExcept]
  exact same.2 (.except (Machine.valueOf_noFault m c.token) rest)

theorem Safe.operand {focus : Focus} {c? : Option Cell} {f : Cell → Action β}
    (rest : ∀ c, c? = some c → c.token.kind.isOperand = true → (f c).Safe m R) :
    (asOperand focus c? >>= f).Safe m R := by
  unfold asOperand
  split
  · split
    · rename_i c operand
      exact .next (outcome_pure c m) (rest c rfl operand)
    · exact safe_of_error (by rw [outcome_bind]; rfl)
  · exact safe_of_error (by rw [outcome_bind]; rfl)

end Action

/-!
## Positions of a program
-/

namespace Program

variable {p : Program} {t : Nat} {line : Line} {pos : Position}

def Linked (p : Program) (pos : Position) : Prop :=
  ∃ line, p.lines[pos.line]? = some line ∧ pos.token ∈ line.refs

theorem Linked.split (linked : p.Linked pos) :
    ∃ line before c after, p.lines[pos.line]? = some line ∧
      line.cells = before ++ c :: after ∧ c.ref = pos.token := by
  obtain ⟨line, found, member⟩ := linked
  obtain ⟨c, hc, ref⟩ := List.mem_map.1 member
  obtain ⟨before, after, cells⟩ := List.append_of_mem hc
  exact ⟨line, before, c, after, found, cells, ref⟩

theorem linked_of_mem {c : Cell} (found : p.lines[t]? = some line) (member : c ∈ line.cells) :
    p.Linked { line := t, token := c.ref } :=
  ⟨line, found, List.mem_map_of_mem member⟩

theorem BraceAt.linked (brace : p.BraceAt pos) : p.Linked pos := by
  obtain ⟨line, header, c, found, cells, -, ref⟩ := brace
  exact ⟨line, found, by rw [Line.refs, cells, ← ref]; simp⟩

theorem Ends.linked {e : Extent} {close : Cell} (ends : p.Ends e close) : p.Linked e.closing := by
  obtain ⟨line, found, cells⟩ := ends.found
  exact ⟨line, found, by rw [Line.refs, cells, ← ends.ref]; simp⟩

theorem Linked.tokenAt (linked : p.Linked pos) (loaded : p.Loaded) :
    ∃ token, p.tokenAt pos = .ok token := by
  obtain ⟨line, before, c, after, found, cells, ref⟩ := linked.split
  refine ⟨c.token, ?_⟩
  simp [Program.tokenAt, lineAt_eq found, Line.get, ← ref, (loaded.line found).focus before cells]

theorem Linked.following (linked : p.Linked pos) (loaded : p.Loaded) :
    ∃ target, p.following pos = .ok target ∧ ∀ next, target = some next → p.Linked next := by
  obtain ⟨line, before, c, after, found, cells, ref⟩ := linked.split
  have focus := (loaded.line found).focus before cells
  rw [ref] at focus
  cases after with
  | cons d after =>
      refine ⟨some { line := pos.line, token := d.ref }, ?_, ?_⟩
      · simp [Program.following, lineAt_eq found, Line.next, focus, Focus.next?]
      · rintro _ ⟨⟩
        exact linked_of_mem found (by simp [cells])
  | nil =>
      refine ⟨p.firstFrom? (pos.line + 1), ?_, ?_⟩
      · simp [Program.following, lineAt_eq found, Line.next, focus, Focus.next?]
      · intro next first
        rw [firstFrom?_eq loaded] at first
        obtain ⟨line', found', head⟩ := Option.bind_eq_some_iff.1 first
        obtain ⟨d, first', rfl⟩ := Option.map_eq_some_iff.1 head
        exact linked_of_mem found' (List.mem_of_head? first')

theorem blockStart_noFault (loaded : p.Loaded) (linked : p.Linked pos) (fault : Fault) :
    p.blockStart pos ≠ .error (.fault fault) := by
  obtain ⟨line, before, c, after, found, cells, ref⟩ := linked.split
  have focus := (loaded.line found).focus before cells
  rw [ref] at focus
  simp only [blockStart, lineAt_eq found, focus, orFault, Except.mapError_ok_eq,
    Except.bind_eq_bind, Except.bind_ok]
  split
  · rintro ⟨⟩
  · split <;> rintro ⟨⟩

theorem blockAfter_noFault (balanced : p.Balanced) {before after : List Cell} {c : Cell}
    (found : p.lines[t]? = some line) (cells : line.cells = before ++ c :: after)
    (bare : c.token.kind.isScopeBracket = false) (fault : Fault) :
    p.blockAfter { line := t, token := c.ref } ≠ .error (.fault fault) := by
  have linked : p.Linked { line := t, token := c.ref } := linked_of_mem found (by simp [cells])
  unfold blockAfter
  cases started : p.blockStart { line := t, token := c.ref } with
  | error stop =>
      rintro ⟨⟩
      exact blockStart_noFault balanced.loaded linked fault started
  | ok b =>
      have brace := (headedBy_of_blockStart balanced found cells bare started).brace
      obtain ⟨closing, close, ended, -⟩ := brace.exists_block balanced
      simp [ended]

end Program

/-!
## Working lines
-/

/-- Tokens that are looked up in the program. -/
def TokenKind.isAnchor : TokenKind → Bool
  | .keyword _ => true
  | .bracket .scope _ => true
  | _ => false

def Line.Spans (l : Line) (part : HeaderPart) : Prop :=
  ∃ before mid after, l.cells = before ++ mid ++ after ∧
    mid.head?.map Cell.ref = some part.1 ∧ mid.getLast?.map Cell.ref = some part.2

/-- The working line comes from a line of the program. -/
structure Work.Stems (w : Work) (p : Program) (n : Nat) : Prop where
  sound : w.line.Sound
  anchors : ∀ c ∈ w.line.cells, c.token.kind.isAnchor = true → ∃ line d,
    p.lines[w.index]? = some line ∧ d ∈ line.cells ∧ d.ref = c.ref ∧ d.token.kind = c.token.kind
  selected : ∀ r, w.selected = some r →
    ∃ c rest, w.line.cells = c :: rest ∧ c.ref = r ∧ c.token.kind = .openBrace
  fits : Line.Fits n [] w.line.cells

structure Call.LinkedIn (c : Call) (p : Program) (n : Nat) : Prop where
  stems : c.saved.Stems p n
  unselected : c.saved.selected = none
  site : ∃ before name opening args close after,
    c.saved.line.cells = before ++ name :: opening :: (args ++ close :: after) ∧
      name.ref = c.nameRef ∧ close.ref = c.closeRef ∧
      opening.token.kind = .bracket .call .opening ∧ close.token.kind = .bracket .call .closing ∧
      ∀ d ∈ name :: args, d.token.kind.isParen = false
  body : p.IsBlock c.function.body

structure Loop.LinkedIn (l : Loop) (p : Program) : Prop where
  parts : ∀ part, l.init = some part ∨ l.condition = some part ∨ l.step = some part →
    ∃ line, p.lines[l.header]? = some line ∧ line.Spans part
  body : p.IsBlock l.body

namespace Machine

def lines (m : Machine) : List Line :=
  m.work.line :: m.calls.map fun c => c.saved.line

structure Sane (m : Machine) (p : Program) (n : Nat) : Prop where
  program : m.program = p
  work : m.work.Stems p n
  calls : ∀ c ∈ m.calls, c.LinkedIn p n
  loops : ∀ l ∈ m.loops, l.LinkedIn p
  functions : ∀ f ∈ m.functions.all, p.IsBlock f.body
  blocks : ∀ b ∈ m.blocks, p.BraceAt b.brace ∧ 0 < b.depth
  symbols : m.symbols.WellFormed
  ids : p.nextId ≤ m.nextId
  drawn : ∀ line ∈ m.lines, line.nextRef ≤ m.nextId

end Machine

namespace Work

variable {w : Work} {p : Program} {n t : Nat} {line : Line} {before mid after : List Cell}

theorem stems_empty (p : Program) (n : Nat) : ({} : Work).Stems p n where
  sound := ⟨.nil, nofun⟩
  anchors := nofun
  selected := nofun
  fits := trivial

theorem stems_copy (loaded : p.Loaded) (bounded : p.Bounded n) (found : p.lines[t]? = some line)
    (before mid after : List Cell) (cells : line.cells = before ++ mid ++ after) (purpose : Purpose)
    {selected : Option Ref}
    (first : ∀ r, selected = some r → ∃ c rest, mid = c :: rest ∧ c.ref = r ∧
      c.token.kind = .openBrace) :
    ({ index := t, line := line.withCells mid, purpose, selected } : Work).Stems p n where
  sound := by
    refine (loaded.line found).sound.withCells ?_
    rw [Line.refs, cells, List.append_assoc]
    exact ((List.sublist_append_left mid after).trans (List.sublist_append_right before _)).map _
  anchors := by
    intro c hc _
    have member : c ∈ mid := hc
    exact ⟨line, c, found, by simp [cells, member], rfl, rfl⟩
  selected := first
  fits := by
    have whole := bounded.fits line (List.mem_of_getElem? found)
    rw [cells] at whole
    exact whole.part

theorem Stems.edit (stems : w.Stems p n) (unselected : w.selected = none) {l : Line}
    (sound : l.Sound) (fits : Line.Fits n [] l.cells)
    (old : ∀ c ∈ l.cells, c.token.kind.isAnchor = true → ∃ d ∈ w.line.cells,
      d.ref = c.ref ∧ d.token.kind = c.token.kind) : ({ w with line := l } : Work).Stems p n where
  sound := sound
  anchors := by
    intro c hc anchor
    obtain ⟨d, hd, ref, kind⟩ := old c hc anchor
    obtain ⟨line, e, found, he, ref', kind'⟩ := stems.anchors d hd (kind ▸ anchor)
    exact ⟨line, e, found, he, ref'.trans ref, kind'.trans kind⟩
  selected := by
    intro r picked
    rw [show w.selected = none from unselected] at picked
    cases picked
  fits := fits

theorem Stems.splice (stems : w.Stems p n) (unselected : w.selected = none) {used : List Cell}
    (cells : w.line.cells = before ++ used ++ after) (new : List Cell)
    (fewer : (new.map Cell.ref).Sublist (used.map Cell.ref))
    (fits : Line.Fits n [] (before ++ new ++ after))
    (bare : ∀ c ∈ new, c.token.kind.isAnchor = false) :
    ({ w with line := w.line.withCells (before ++ new ++ after) } : Work).Stems p n := by
  refine stems.edit unselected (stems.sound.withCells ?_) fits ?_
  · rw [Line.refs, cells]
    simp only [List.map_append]
    exact ((List.Sublist.refl _).append fewer).append (List.Sublist.refl _)
  · intro c hc anchor
    have kept : c ∈ w.line.cells := by
      rw [cells]
      simp only [Line.withCells, List.mem_append] at hc ⊢
      rcases hc with (hc | hc) | hc
      · exact .inl (.inl hc)
      · rw [bare c hc] at anchor
        cases anchor
      · exact .inr hc
    exact ⟨c, kept, rfl, rfl⟩

theorem Stems.answer (stems : w.Stems p n) (unselected : w.selected = none) {used : List Cell}
    (cells : w.line.cells = before ++ used ++ after) (level : ∀ s, Line.parensOver s used = s)
    {c : Cell} (member : c ∈ used) (value : Value) (id : Nat) :
    ({ w with line := w.line.withCells (before ++
      { c with token := .literal value id c.token.line } :: after) } : Work).Stems p n := by
  have fits := stems.fits
  rw [cells] at fits
  have made := stems.splice unselected cells [{ c with token := .literal value id c.token.line }]
    (by simpa using List.mem_map_of_mem member)
    (fits.splice_literal (List.ne_nil_of_mem member) level c value id c.token.line)
    (by simp [Token.literal, Token.new, TokenKind.isAnchor])
  simpa using made

end Work

namespace Machine

variable {m m' : Machine} {p : Program} {n t : Nat}

namespace Sane

theorem withWork (sane : m.Sane p n) {work : Work} (stems : work.Stems p n)
    (drawn : work.line.nextRef ≤ m.nextId) : ({ m with work } : Machine).Sane p n :=
  { sane with
    work := stems
    drawn := by
      intro line member
      rcases List.mem_cons.1 member with rfl | member
      · exact drawn
      · exact sane.drawn line (List.mem_cons_of_mem _ member) }

theorem reduce (sane : m.Sane p n) {line : Line} {symbols : Symbols} {nextId : Nat} {sink : Sink}
    (stems : ({ m.work with line } : Work).Stems p n) (formed : symbols.WellFormed)
    (more : m.nextId ≤ nextId) (drawn : line.nextRef ≤ nextId) :
    ({ m with work := { m.work with line }, symbols, nextId, sink } : Machine).Sane p n :=
  { sane with
    work := stems
    symbols := formed
    ids := Nat.le_trans sane.ids more
    drawn := by
      intro l member
      rcases List.mem_cons.1 member with rfl | member
      · exact drawn
      · exact Nat.le_trans (sane.drawn l (List.mem_cons_of_mem _ member)) more }

theorem nextRef_le (sane : m.Sane p n) : m.work.line.nextRef ≤ m.nextId :=
  sane.drawn m.work.line (List.mem_cons_self ..)

theorem position (sane : m.Sane p n) {f : Focus} (whole : f.cells = m.work.line.cells)
    (anchor : f.cell.token.kind.isAnchor = true) : ∃ line before c after,
      p.lines[m.work.index]? = some line ∧ line.cells = before ++ c :: after ∧
      m.positionOf f.cell = { line := m.work.index, token := c.ref } ∧ c.ref = f.cell.ref ∧
      c.token.kind = f.cell.token.kind := by
  have member : f.cell ∈ m.work.line.cells := by simp [← whole, Focus.cells]
  obtain ⟨line, c, found, hc, ref, kind⟩ := sane.work.anchors f.cell member anchor
  obtain ⟨before, after, cells⟩ := List.append_of_mem hc
  exact ⟨line, before, c, after, found, cells, by rw [positionOf, ref], ref, kind⟩

/-!
Going to a place of the program.
-/

theorem halted (sane : m.Sane p n) :
    ({ m with work := {}, finished := true } : Machine).Sane p n := by
  have rested := sane.withWork (Work.stems_empty p n) (Nat.zero_le _)
  exact { rested with }

theorem goToLine (sane : m.Sane p n) (loaded : p.Loaded) (bounded : p.Bounded n) (i : Nat) :
    (Action.goToLine i).Safe m fun _ m' => m'.Sane p n := by
  cases found : p.lines[i]? with
  | none =>
      exact Action.safe_of_ok (outcome_goToLine_past
        (by rw [sane.program]; exact found)) sane.halted
  | some line =>
      refine Action.safe_of_ok (outcome_goToLine
        (by rw [sane.program]; exact found)) (sane.withWork ?_ ?_)
      · exact Work.stems_copy loaded bounded found [] line.cells [] (by simp) .statement nofun
      · exact Nat.le_trans (bounded.drawn line (List.mem_of_getElem? found)) sane.ids

theorem goTo (sane : m.Sane p n) (loaded : p.Loaded) (bounded : p.Bounded n)
    {target : Option Position} (linked : ∀ pos, target = some pos → p.Linked pos) :
    (Action.goTo target).Safe m fun _ m' => m'.Sane p n := by
  cases target with
  | none => exact Action.safe_of_ok outcome_halt sane.halted
  | some pos =>
      obtain ⟨line, before, c, after, found, cells, ref⟩ := (linked pos rfl).split
      obtain ⟨i, token⟩ := pos
      simp only at ref found
      subst ref
      refine Action.safe_of_ok (outcome_goTo (by rw [sane.program]; exact found) (loaded.line found)
        before cells) (sane.withWork ?_ ?_)
      · refine Work.stems_copy loaded bounded found before (c :: after) [] (by simpa using cells)
          .statement ?_
        intro r picked
        split at picked
        · rename_i kind
          cases picked
          exact ⟨c, after, rfl, rfl, kind⟩
        · cases picked
      · exact Nat.le_trans (bounded.drawn line (List.mem_of_getElem? found)) sane.ids

end Sane

end Machine

end LineScript
