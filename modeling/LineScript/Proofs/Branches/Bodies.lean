import LineScript.Proofs.Frames

/-!
# Blocks that are no bodies

The `}` of a body ends an iteration or a call.  Every body that a machine knows belongs to a line
with a `while`, a `for` or a `def` (`Machine.Rooted.after`), so the `}` of a block that belongs to
another line does no more than close a scope (`Program.Guards.closing_ne`).
-/

namespace LineScript

namespace Program

variable {p : Program} {t : Nat} {e : Extent}

def Near (p : Program) (t : Nat) (b : Position) : Prop :=
  b.line = t ∨ b.line = t + 1 ∧ ∃ line c, p.lines[b.line]? = some line ∧ line.cells = [c]

theorem blockAfter_ok {pos : Position} (made : p.blockAfter pos = .ok e) :
    p.blockStart pos = .ok e.opening ∧ p.blockEnd e.opening = .ok e.closing := by
  unfold blockAfter at made
  cases started : p.blockStart pos with
  | error stop => simp [started] at made
  | ok b =>
      cases ended : p.blockEnd b with
      | error stop => simp [started, ended] at made
      | ok close =>
          simp only [started, ended, Except.bind_eq_bind, Except.bind_ok, Except.pure_eq_ok] at made
          cases made
          exact ⟨rfl, ended⟩

theorem near_of_blockStart (balanced : p.Balanced) {pos b : Position}
    (started : p.blockStart pos = .ok b) : p.Near pos.line b := by
  unfold blockStart at started
  cases found : p.lineAt pos.line with
  | error fault => simp [found, orFault] at started
  | ok line =>
      cases focus : line.focus pos.token with
      | error fault => simp [found, focus, orFault] at started
      | ok f =>
          simp only [found, focus, orFault, Except.mapError_ok_eq, Except.bind_eq_bind,
            Except.bind_ok] at started
          split at started
          · cases started
            exact .inl rfl
          · split at started
            · rename_i brace first
              cases started
              obtain ⟨head, opening⟩ := Option.filter_eq_some_iff.1 first
              obtain ⟨next, atNext, leads⟩ := Option.bind_eq_some_iff.1 head
              obtain ⟨rest, cells⟩ := List.head?_eq_some_iff.1 leads
              have alone := balanced.brace_alone atNext cells (isOpenBrace_iff.1 opening)
              exact .inr ⟨rfl, next, brace, atNext, alone⟩
            · cases started

def IsBody (p : Program) (e : Extent) : Prop :=
  ∃ t line c, p.lines[t]? = some line ∧ c ∈ line.cells ∧ c.token.kind.hasBody = true ∧
    p.Near t e.opening

/-- A block belongs to a line without such keywords. -/
structure Guards (p : Program) (t : Nat) (e : Extent) : Prop where
  block : p.IsBlock e
  near : p.Near t e.opening
  line : ∃ line c, p.lines[t]? = some line ∧ c ∈ line.cells ∧ c.token.kind ≠ .openBrace ∧
    ∀ d ∈ line.cells, d.token.kind.hasBody = false

theorem BraceAt.alone {b : Position} (brace : p.BraceAt b)
    (alone : ∃ line c, p.lines[b.line]? = some line ∧ line.cells = [c]) {line : Line}
    (found : p.lines[b.line]? = some line) {d : Cell} (member : d ∈ line.cells) :
    d.token.kind = .openBrace := by
  obtain ⟨line₁, header, c₁, found₁, cells₁, kind, -⟩ := brace
  obtain ⟨line₂, c₂, found₂, cells₂⟩ := alone
  obtain rfl : line₁ = line := Option.some.inj (found₁.symm.trans found)
  obtain rfl : line₂ = line₁ := Option.some.inj (found₂.symm.trans found)
  rw [cells₂] at cells₁ member
  obtain ⟨-, same⟩ := List.append_inj' (show [] ++ [c₂] = header ++ [c₁] from cells₁) rfl
  rw [List.mem_singleton.1 member, (List.cons.inj same).1, kind]

/-- The `}` of a guarded block is not that of a body. -/
theorem Guards.closing_ne (guards : p.Guards t e) (balanced : p.Balanced) {b : Extent}
    (body : p.IsBody b) (block : p.IsBlock b) : b.closing.line ≠ e.closing.line := by
  intro same
  obtain ⟨_, ends⟩ := guards.block.ends balanced
  obtain ⟨_, ends'⟩ := block.ends balanced
  -- A `}` closes one brace only, so both blocks open on one line.
  have opening : b.opening.line = e.opening.line := by
    have inside := ends'.inside
    rw [same, ends.inside] at inside
    exact (List.cons.inj inside).1.symm
  obtain ⟨line, c, found, member, other, none⟩ := guards.line
  obtain ⟨u, line', d, found', member', has, near'⟩ := body
  have sameLine : t ≠ u := by
    rintro rfl
    rw [found] at found'
    cases found'
    rw [none d member'] at has
    cases has
  rcases guards.near with here | ⟨next, alone⟩
  · rcases near' with here' | ⟨-, alone'⟩
    · exact sameLine (here.symm.trans (opening.symm.trans here'))
    · exact other (block.brace.alone alone' (by rw [opening, here]; exact found) member)
  · rcases near' with here' | ⟨next', -⟩
    · have kind := guards.block.brace.alone alone (by rw [← opening, here']; exact found') member'
      rw [kind] at has
      cases has
    · exact sameLine (Nat.succ.inj (next.symm.trans (opening.symm.trans next')))

end Program

namespace Machine

variable {m m' : Machine} {p : Program} {n : Nat}

structure Rooted (m : Machine) (p : Program) (n : Nat) : Prop where
  sane : m.Sane p n
  bodies : ∀ e ∈ m.bodies, p.IsBody e

theorem GivesBody.isBody {f : Focus} {e : Extent} (heads : m.GivesBody f e) (sane : m.Sane p n)
    (balanced : p.Balanced) (acts : m.acting? = some f) : p.IsBody e := by
  obtain ⟨has, r, made⟩ := heads
  have anchor : f.cell.token.kind.isAnchor = true := by
    cases kind : f.cell.token.kind with
    | keyword k => rfl
    | _ =>
        rw [kind] at has
        cases has
  obtain ⟨line, before, c, after, found, cells, -, -, kind⟩ :=
    sane.position (whole_of_acting acts) anchor
  rw [sane.program] at made
  exact ⟨m.work.index, line, c, found, by simp [cells], by rw [kind, has],
    Program.near_of_blockStart balanced (Program.blockAfter_ok made).1⟩

theorem Rooted.next (rooted : m.Rooted p n) (balanced : p.Balanced) (bounded : p.Bounded n)
    (step : m.next = .ok m') : m'.Rooted p n := by
  refine ⟨rooted.sane.next balanced bounded step, ?_⟩
  have keep {new : List Extent} (bodies : m'.bodies ⊆ new ++ m.bodies)
      (heads : ∀ e ∈ new, ∃ f, m.acting? = some f ∧ m.GivesBody f e) :
      ∀ e ∈ m'.bodies, p.IsBody e := by
    intro e member
    rcases List.mem_append.1 (bodies member) with fresh | old
    · obtain ⟨f, acts, heads⟩ := heads e fresh
      exact heads.isBody rooted.sane balanced acts
    · exact rooted.bodies e old
  cases records_of_next step with
  | block f acts _ _ _ bodies =>
      rw [bodies]
      exact rooted.bodies
  | opens f acts _ new heads opens =>
      exact keep opens.bodies fun e fresh => ⟨f, acts, heads e fresh⟩
  | sheds new heads sheds => exact keep sheds.bodies heads

theorem Rooted.after (rooted : m.Rooted p n) (balanced : p.Balanced) (bounded : p.Bounded n)
    {k : Nat} (reached : m.after k = .ok m') : m'.Rooted p n :=
  after_induction (P := fun m => m.Rooted p n) reached rooted fun _ _ rooted₁ step =>
    rooted₁.next balanced bounded step

theorem rooted_start (loaded : p.Loaded) (bounded : p.Bounded n) (settings : Settings) :
    (Machine.start p settings).machine.Rooted p n := by
  refine ⟨sane_start loaded bounded settings, ?_⟩
  have leads : (Action.goToLine 0).Leads (Machine.initial p settings) fun m =>
      ∀ e ∈ m.bodies, p.IsBody e := by
    refine (Action.goToLine_fetches 0).mono fun m fetches e member => ?_
    have known : e ∈ (Machine.initial p settings).bodies := fetches.sheds.bodies member
    cases known
  exact start_of_leads leads

end Machine

end LineScript
